import DexLift.Proofs.Ir.Checking
import DexLift.Proofs.Resolve.Inference

/-!
# Inferred types of joins

Types are inferred in two passes: the types of the first one are written into the
locals, and what is left open is settled for the second one. Whenever a further round
of the second pass would change nothing, the inferred type of each join and of each
copy is one that values of its operands can be given. A further round changes nothing
when no reference comes out of an array and locals come without descriptors of their
own. Around loops that read arrays of arrays the rounds may be too few.
-/

namespace DexLift.Ir

open List
open Hierarchy (known)
open Typing (Regular SameKinds Spread)

variable {t : Typing} {a : Action} {x : LocalId}

variable {m : Method} {h : Option Hierarchy}

/-- Locals come with no descriptor but the one that they are assigned. -/
def Method.BringsOwn (m : Method) : Prop :=
  ∀ a ∈ m.actions, ∀ x origin, a.rule? m = some (x, origin) →
    m.brought x = ∅ ∨ origin = .given (m.brought x)

def Method.DefinesOwn (m : Method) : Prop :=
  ∀ a ∈ m.actions, ∀ x, a.defines? = some x → x < m.locals.size

/-! ## Two passes -/

/-- What both passes find, step by step. -/
structure Passes (m : Method) (h : Option Hierarchy) (first second third last : Typing) : Prop where
  kinds : Typing.solveKinds m (Typing.kindRounds m) (.ofMethod m) = .ok first
  descs : Typing.solveDescs m h (m.locals.size + 2) first = .ok second
  kindsAgain : Typing.solveKinds (second.apply m) (Typing.kindRounds (second.apply m)) second =
    .ok third
  descsAgain : Typing.solveDescs (second.apply m) h ((second.apply m).locals.size + 2)
    third.settle = .ok last

theorem passes_of_described {n : Method} (found : m.described h = .ok (n, t)) :
    ∃ first second third, Passes m h first second third t ∧ n = second.apply m := by
  obtain ⟨first, kinds, found⟩ := Outcome.bind_ok.mp found
  obtain ⟨second, descs, found⟩ := Outcome.bind_ok.mp found
  obtain ⟨third, kindsAgain, found⟩ := Outcome.bind_ok.mp found
  obtain ⟨last, descsAgain, found⟩ := Outcome.bind_ok.mp found
  cases found
  exact ⟨first, second, third, ⟨kinds, descs, kindsAgain, descsAgain⟩, rfl⟩

theorem rule?_locals (plain : a.readsElement = false) (locals : Array Local) :
    a.rule? { m with locals } = a.rule? m := by
  have own : ∀ value : Expr, (∀ type args, value ≠ .node (.element type) args) →
      value.local? = none → ({ m with locals } : Method).ownDesc value = m.ownDesc value := by
    rintro ⟨head, args⟩ notElement notRead
    cases head with
    | read => cases notRead
    | element type => exact absurd rfl (notElement type args)
    | const type value => cases value <;> rfl
    | _ => rfl
  cases a with
  | assign target value | identity target value =>
    have notElement : ∀ type args, value ≠ .node (.element type) args := by
      rintro type args rfl
      cases plain
    unfold Action.rule?
    dsimp only
    cases read : value.local? with
    | none => rw [own value notElement read]
    | some source => rfl
  | _ => rfl

theorem Typing.mem_rulesOf {actions : List Action} {rule : Rule Text} :
    rule ∈ t.rulesOf m actions ↔
      ∃ a ∈ actions, a.rule? m = some rule ∧ t.kindOf rule.1 = .ref := by
  simp only [Typing.rulesOf, mem_filterMap, Option.filter_eq_some_iff, beq_iff_eq]

namespace Passes

variable {first second third last : Typing} (passes : Passes m h first second third last)

include passes

theorem narrows : (Typing.ofMethod m).Narrows first ∧ second.Narrows third ∧
    ∀ x < m.locals.size, third.kindOf x ≠ .bottom := by
  obtain ⟨locals, eq, size, -⟩ := Typing.apply_spec second m
  obtain ⟨more, left⟩ := Typing.solveKinds_spec (Nat.succ_pos _) passes.kindsAgain
  refine ⟨(Typing.solveKinds_spec (Nat.succ_pos _) passes.kinds).1, more, fun x inside => ?_⟩
  refine left x ?_
  rwa [eq, size]

theorem kindOf_last (inside : x < m.locals.size) (isRef : first.kindOf x = .ref) :
    last.kindOf x = .ref := by
  obtain ⟨-, more, left⟩ := passes.narrows
  rw [(Typing.sameKinds_solveDescs passes.descsAgain).kindOf]
  refine Typing.kindOf_settle ((more.refs x ?_).resolve_right (left x inside))
  rwa [(Typing.sameKinds_solveDescs passes.descs).kindOf]

theorem last_spec : last.descs.size = m.locals.size ∧
    ∀ a ∈ m.actions, ∀ x, a.defines? = some x → ∀ y ∈ a.joined, x < m.locals.size →
      y < m.locals.size → last.kindOf x = last.kindOf y := by
  obtain ⟨size, -, joined⟩ := Typing.ofMethod_spec m
  obtain ⟨fewer, more, -⟩ := passes.narrows
  have early := Typing.sameKinds_solveDescs passes.descs
  have late := Typing.sameKinds_solveDescs passes.descsAgain
  constructor
  · calc last.descs.size = third.settle.descs.size := late.size
      _ = second.descs.size := congrArg Array.size more.descs
      _ = first.descs.size := early.size
      _ = m.locals.size := (congrArg Array.size fewer.descs).trans size
  · intro a member x defines y shares inside within
    have group : last.group = (Typing.ofMethod m).group :=
      late.group.trans (more.group.trans (early.group.trans fewer.group))
    rw [Typing.kindOf, Typing.kindOf, group, joined a member x defines y shares inside within]

theorem regular (defines : m.DefinesOwn)
    (plain : ∀ a ∈ m.actions, ∀ x, a.defines? = some x → last.kindOf x = .ref →
      a.readsElement = false) : first.Regular m.actions ∧ third.settle.Regular m.actions := by
  have early := Typing.sameKinds_solveDescs passes.descs
  have late := Typing.sameKinds_solveDescs passes.descsAgain
  have room := passes.last_spec.1
  have middle : third.settle.descs.size = second.descs.size :=
    congrArg Array.size passes.narrows.2.1.descs
  refine ⟨⟨fun a member x here => ?_, fun a member x here isRef => ?_⟩,
    ⟨fun a member x here => ?_, fun a member x here isRef => ?_⟩⟩
  · rw [← early.size, ← middle, ← late.size, room]
    exact defines a member x here
  · exact plain a member x here (passes.kindOf_last (defines a member x here) isRef)
  · rw [← late.size, room]
    exact defines a member x here
  · exact plain a member x here ((late.kindOf x).trans isRef)

theorem own_first (own : m.BringsOwn) (member : a ∈ m.actions) {origin : Origin Text}
    (rule : a.rule? m = some (x, origin)) :
    (∀ c, (known h).Below (first.descOf x) c) ∨ origin = .given (first.descOf x) := by
  have brought : first.descOf x = m.brought x := by
    rw [← (Typing.ofMethod_spec m).2.1 x, Typing.descOf, passes.narrows.1.descs, Typing.descOf]
  rw [brought]
  exact (own a member x origin rule).imp_left fun null c => .inl null

/-- The first pass starts with nothing but what comes to locals. -/
theorem spread_first (own : m.BringsOwn) : first.Spread m h first.descOf 0 := by
  have nothing : Rule.Bounded (known h).Below [] first.descOf first.descOf :=
    fun x c above => above 0 _ (.kept not_mem_nil)
  refine .zero (nothing.widen (nil_subset _) (fun _ _ => rfl) fun x ruled => ?_)
  obtain ⟨⟨x, origin⟩, listed, rfl⟩ := mem_map.mp ruled
  obtain ⟨a, member, rule, -⟩ := Typing.mem_rulesOf.mp listed
  refine (passes.own_first own member rule).imp_right fun given => ?_
  rwa [← given]

section

variable (tree : (known h).IsTree) (once : (m.actions.filterMap Action.defines?).Nodup)
  (defines : m.DefinesOwn) (own : m.BringsOwn)
  (plain : ∀ a ∈ m.actions, ∀ x, a.defines? = some x → last.kindOf x = .ref → a.readsElement = false)

include tree once defines own plain

theorem spread_third (locals : Array Local) :
    third.settle.Spread { m with locals } h third.settle.descOf 0 := by
  obtain ⟨regular, -⟩ := passes.regular defines plain
  obtain ⟨⟨n, spread⟩, -⟩ :=
    (passes.spread_first own).solveDescs tree once regular passes.descs
  have early := Typing.sameKinds_solveDescs passes.descs
  have late := Typing.sameKinds_solveDescs passes.descsAgain
  have same : third.settle.descOf = second.descOf :=
    funext fun x => congrArg (·.getD x ∅) passes.narrows.2.1.descs
  -- Rules of the first pass stay, as none of them reads an array.
  have within : second.rulesOf m m.actions ⊆ third.settle.rulesOf { m with locals } m.actions := by
    rw [early.rulesOf]
    rintro ⟨x, origin⟩ listed
    obtain ⟨a, member, rule, isRef⟩ := Typing.mem_rulesOf.mp listed
    have here := Typing.rule?_fst rule
    have stays := passes.kindOf_last (defines a member x here) isRef
    refine Typing.mem_rulesOf.mpr ⟨a, member, ?_, (late.kindOf x).symm.trans stays⟩
    rwa [rule?_locals (plain a member x here stays)]
  refine .zero ?_
  rw [same]
  refine spread.bounded.widen within spread.kept fun x ruled => ?_
  obtain ⟨⟨x, origin⟩, listed, rfl⟩ := mem_map.mp ruled
  obtain ⟨a, member, rule, isRef⟩ := Typing.mem_rulesOf.mp listed
  have here := Typing.rule?_fst rule
  rw [rule?_locals (plain a member x here ((late.kindOf x).trans isRef))] at rule
  refine (passes.own_first own member rule).imp_right fun given => ?_
  rwa [← given]

/-- Further rounds change nothing when no reference comes out of an array and locals come with no
descriptor but their own. -/
theorem settled : last.Settled (second.apply m) h := by
  obtain ⟨locals, eq, size, -⟩ := Typing.apply_spec second m
  obtain ⟨-, regular⟩ := passes.regular defines plain
  have late := Typing.sameKinds_solveDescs passes.descsAgain
  have descsAgain := passes.descsAgain
  rw [eq] at descsAgain ⊢
  have start := passes.spread_third tree once defines own plain locals
  obtain ⟨-, done | spread⟩ := start.solveDescs tree once regular descsAgain
  · exact done
  refine spread.settled tree once (regular.follow late) ?_
  -- No more locals have rules than there are locals.
  have distinct := once.sublist (last.rulesOf_sublist { m with locals } m.actions)
  have inside : (last.rulesOf { m with locals } m.actions).map Prod.fst ⊆ range m.locals.size := by
    intro x ruled
    obtain ⟨rule, listed, rfl⟩ := mem_map.mp ruled
    obtain ⟨a, member, found, -⟩ := Typing.mem_rulesOf.mp listed
    exact mem_range.mpr (defines a member _ (Typing.rule?_fst found))
  have few := (subperm_of_subset distinct inside).length_le
  rw [length_map, length_range] at few
  refine le_trans few ?_
  change m.locals.size ≤ 0 + (locals.size + 2)
  omega

end

end Passes

/-! ## Joins -/

theorem Method.SingleAssignment.nodup_defines (single : m.SingleAssignment) :
    (m.actions.filterMap Action.defines?).Nodup := by
  have apart : m.actions.Pairwise fun a b => ∀ x, a.defines? = some x → b.defines? ≠ some x := by
    refine pairwise_iff_getElem.mpr fun i j left right less x first second => ?_
    exact Nat.ne_of_lt less (single.once i j _ _ x (getElem?_eq_getElem left)
      (getElem?_eq_getElem right) first second)
  refine Pairwise.filterMap _ (fun a b other x first y second same => ?_) apart
  exact other x first (same ▸ second)

theorem Typing.Settled.below {locals : Array Local} (settled : t.Settled { m with locals } h)
    (tree : (known h).IsTree) (once : (m.actions.filterMap Action.defines?).Nodup)
    (inside : ∀ a ∈ m.actions, ∀ x, a.defines? = some x → x < t.descs.size) (member : a ∈ m.actions)
    {y : LocalId} (defines : a.defines? = some x) (isRef : t.kindOf x = .ref)
    (shares : y ∈ a.joined) : (known h).Below (t.descOf y) (t.descOf x) := by
  obtain ⟨next, ran, unchanged⟩ := settled
  obtain ⟨now, -, kept, tells⟩ :=
    Typing.tells_of_unchanged once inside ran unchanged a member x defines isRef
  have same : now.descOf = t.descOf := funext fun y => congrArg (·.getD y ∅) kept
  generalize told : t.descOf x = desc at tells ⊢
  cases tells with
  | @phi target args _ merged =>
    obtain ⟨least, also, above⟩ := Typing.mergeArgs_spec tree now args
    cases merged.symm.trans also
    rw [← same]
    exact (above desc).mp (Hierarchy.below_refl desc) y shares
  | assign target value =>
    obtain ⟨head, args⟩ := value
    cases head with
    | read source =>
      obtain rfl := mem_singleton.mp shares
      rw [← same]
      exact Hierarchy.below_refl _
    | _ => cases shares
  | identity => cases shares

theorem Method.localType_mapActions (m : Method) (change : Action → Action) (x : LocalId) :
    (m.mapActions change).localType x = m.localType x := by
  have locals : (m.mapActions change).locals = m.locals := by
    unfold mapActions
    rw [← Array.foldl_toList]
    induction m.order.toList generalizing m with
    | nil => rfl
    | cons id ids ih =>
      rw [foldl_cons]
      exact ih _
  rw [localType, localType, local_, local_, locals]

/-- The inferred type of a join or a copy is one that values of its operands can be given, unless
guesses are refined: provided that a further round would change nothing. This is the case when no
reference comes out of an array and locals come with no descriptor but the one that they are
assigned. -/
theorem joins_inferTypes {m' : Method} (tree : (known h).IsTree) (single : m.SingleAssignment)
    (defines : m.DefinesOwn) (inferred : m.inferTypes h = .ok m') :
    ∃ n t, m.described h = .ok (n, t) ∧
      (m.BringsOwn → (∀ a ∈ m.actions, ∀ x, a.defines? = some x → t.kindOf x = .ref →
        a.readsElement = false) → t.Settled n h) ∧
      (t.Settled n h → ∀ a ∈ m.actions, ∀ x, a.defines? = some x → ∀ y ∈ a.joined,
        (m'.localType x).kind = .ref → (m'.localType x).desc = t.descOf x →
        (m'.localType y).desc = ∅ ∨ Hierarchy.merge h (m'.localType x).desc (m'.localType y).desc =
          .ok (m'.localType x).desc) := by
  have once := single.nodup_defines
  rw [Method.inferTypes] at inferred
  obtain ⟨⟨n, t⟩, found, inferred⟩ := Outcome.bind_ok.mp inferred
  obtain ⟨refined, refines, inferred⟩ := Outcome.bind_ok.mp inferred
  cases inferred
  obtain ⟨first, second, third, passes, rfl⟩ := passes_of_described found
  refine ⟨_, t, found, fun own plain => passes.settled tree once defines own plain, ?_⟩
  intro settled a member x here y shares isRef kept
  obtain ⟨locals, eq, size, -⟩ := Typing.apply_spec second m
  obtain ⟨room, sameKind⟩ := passes.last_spec
  obtain ⟨same, old⟩ := Typing.refine_spec refines
  have inside := defines a member x here
  -- The types are those of the refined typing.
  have written : ∀ y, ((refined.apply (second.apply m)).mapActions
      (refined.apply (second.apply m)).resolveAction).localType y =
      if y < m.locals.size then refined.typeOf y else .top := by
    intro y
    obtain ⟨-, -, -, types⟩ := Typing.apply_spec refined (second.apply m)
    rw [Method.localType_mapActions, types, eq, size]
  rw [written x, if_pos inside] at isRef kept ⊢
  rw [written y]
  rw [Typing.kind_typeOf] at isRef
  rw [Typing.desc_typeOf isRef] at kept ⊢
  rw [same.kindOf] at isRef
  by_cases within : y < m.locals.size
  · have isRefToo : refined.kindOf y = .ref := by
      rw [same.kindOf, ← sameKind a member x here y shares inside within, isRef]
    rw [if_pos within, Typing.desc_typeOf isRefToo, kept]
    have below : (known h).Below (t.descOf y) (t.descOf x) := by
      rw [eq] at settled
      refine settled.below tree once (fun b listed z there => ?_) member here isRef shares
      rw [room]
      exact defines b listed z there
    -- An operand that was refined had the root, which only the root stands above.
    have refinedBelow : (known h).Below (refined.descOf y) (t.descOf x) := by
      rcases old y with unchanged | root
      · rwa [unchanged]
      · rw [root] at below
        have top := below.resolve_left (by decide)
        rw [tree.eq_root top]
        exact .inr (.root _)
    exact refinedBelow.imp_right fun covers => tree.merge_eq_left_iff.mpr covers
  · rw [if_neg within]
    exact .inl rfl

/-- Two classes with a superclass. -/
def siblings : Hierarchy := { supers := [("Lb;", "La;"), ("Lc;", "La;")] }

theorem isTree_siblings : siblings.IsTree := by
  have super : ∀ {name super : Text}, siblings.Extends name super →
      super = "La;" ∧ name ≠ "La;" := by
    intro name super here
    obtain ⟨entry, found, rfl⟩ := Option.map_eq_some_iff.mp here
    have each : ∀ entry ∈ siblings.supers, entry.2 = "La;" ∧ entry.1 ≠ "La;" := by decide
    have same := find?_some found
    obtain ⟨above, differ⟩ := each entry (mem_of_find?_eq_some found)
    exact ⟨above, eq_of_beq same ▸ differ⟩
  refine ⟨fun name circle => ?_, by decide, fun name s here => ?_, fun _ _ _ => rfl⟩
  · obtain ⟨above, first, rest⟩ := Relation.TransGen.head'_iff.mp circle
    obtain ⟨rfl, differ⟩ := super first
    rcases rest.cases_head with same | ⟨further, second, -⟩
    · exact differ same.symm
    · exact (super second).2 rfl
  · rw [(super here).1]
    decide

namespace Method

/-- A loop that begins with an object of one class and goes on with one of another. -/
def siblingLoop : Method :=
  { ofRef { owner := "La;", name := "f", proto := { params := [], result := "La;" } } ⟨8⟩ with
    locals := Array.replicate 5 { type := .top }
    stmts := #[
      ⟨.label (.number 0), none⟩,
      ⟨.assign 0 (.leaf (.new "Lb;")), none⟩,
      ⟨.label (.number 1), none⟩,
      ⟨.phi 1 [⟨.number 0, 0, false⟩, ⟨.number 1, 3, false⟩], none⟩,
      ⟨.assign 2 (.leaf (.new "Lc;")), none⟩,
      ⟨.assign 3 (.read 2), none⟩,
      ⟨.assign 4 (.read 1), none⟩,
      ⟨.branch .eq (.read 4) (some (.read 3)) (.number 1), none⟩,
      ⟨.return (some (.read 4)), none⟩]
    order := #[0, 1, 2, 3, 4, 5, 6, 7, 8]
    placed := #[some 0, some 2] }

def siblingLoopNotes (position : Nat) : Note :=
  { known := range (min 5 (position - if position < 3 then 1 else 2))
    ways :=
      if position < 2 then Note.entry.ways
      else [((.number 0, false), [0]), ((.number 1, false), [0, 1, 2, 3, 4])] }

/-- The join is of the superclass. -/
example : ((siblingLoop.inferTypes (some siblings)).toOption.map fun m =>
    (range 5).map fun x => (m.localType x).desc) =
      some (["Lb;", "La;", "Lc;", "Lc;", "La;"].map Text.ofString) := by
  decide +kernel

end Method

/-- The join of the loop, and the copy of it, are of a class that both classes extend. -/
theorem joins_inferTypes_siblings : (known (some siblings)).IsTree ∧
    Method.siblingLoop.SingleAssignment ∧ Method.siblingLoop.DefinesOwn ∧
    ∃ m', Method.siblingLoop.inferTypes (some siblings) = .ok m' ∧
      ∃ n t, Method.siblingLoop.described (some siblings) = .ok (n, t) ∧
        t.Settled n (some siblings) ∧
        ∀ a ∈ Method.siblingLoop.actions, ∀ x, a.defines? = some x → ∀ y ∈ a.joined,
          (m'.localType x).kind = .ref → (m'.localType x).desc = t.descOf x →
          (m'.localType y).desc = ∅ ∨ Hierarchy.merge (some siblings) (m'.localType x).desc
            (m'.localType y).desc = .ok (m'.localType x).desc := by
  have tree : (known (some siblings)).IsTree := isTree_siblings
  have noted : Method.siblingLoop.Noted Method.siblingLoopNotes := by decide +kernel
  have defines : Method.siblingLoop.DefinesOwn := by
    change ∀ a ∈ Method.siblingLoop.actions, ∀ x ∈ a.defines?, x < Method.siblingLoop.locals.size
    decide +kernel
  have plain : ∀ a ∈ Method.siblingLoop.actions, a.readsElement = false := by decide +kernel
  have bare : ∀ a ∈ Method.siblingLoop.actions, ∀ x ∈ a.defines?, Method.siblingLoop.brought x = ∅ := by
    decide +kernel
  have done : (Method.siblingLoop.inferTypes (some siblings)).toOption.isSome = true := by
    decide +kernel
  obtain ⟨m', inferred⟩ : ∃ m', Method.siblingLoop.inferTypes (some siblings) = .ok m' := by
    cases found : Method.siblingLoop.inferTypes (some siblings) with
    | ok m' => exact ⟨m', rfl⟩
    | error => rw [found] at done; cases done
  obtain ⟨n, t, found, settles, joins⟩ :=
    joins_inferTypes tree noted.singleAssignment defines inferred
  have settled : t.Settled n (some siblings) := by
    refine settles (fun a member x origin rule => ?_) fun a member _ _ _ => plain a member
    exact .inl (bare a member x (Typing.rule?_fst rule))
  exact ⟨tree, noted.singleAssignment, defines, m', inferred, n, t, found, settled, joins settled⟩

end DexLift.Ir
