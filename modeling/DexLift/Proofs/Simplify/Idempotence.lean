import DexLift.Proofs.Simplify.ArrayLiterals
import DexLift.Proofs.Simplify.Constants
import DexLift.Proofs.Simplify.Settling

/-!
# Running a clean-up pass twice

What a pass leaves is what it looks for no longer: no copy and no join of one value, no
definition that may go and that nothing needs, no allocation with a fill right behind it. So
a second run finds nothing to do. Writing constants where they are read is the exception. A
local that copies another becomes a constant by the first run when a constant defines the
other one, and is itself written where it is read by the second.
-/

namespace DexLift.Ir

open List Substitution

def Action.startsFilling (x : LocalId) (size : Nat) (type : Ty) : Action → Bool
  | .fillArray array data => array.local? = some x ∧ data.elements.length = size
  | action => size ≤ maxLiteral && (elementStore? x size type action).isSome

theorem Condensed.head {before after : List (StmtId × Stmt)} (condensed : Condensed before after) :
    (before = [] ∧ after = []) ∨ ∃ id s t first second, before = (id, s) :: first ∧
      after = (id, t) :: second ∧ (t.action = s.action ∨
        ∃ target value target' value', s.action = .assign target value ∧
          t.action = .assign target' value') := by
  cases condensed with
  | nil => exact .inl ⟨rfl, rfl⟩
  | keep s rest => exact .inr ⟨s.1, s.2, s.2, _, _, rfl, rfl, .inl rfl⟩
  | literal stands rest =>
    refine .inr ⟨_, _, _, _, _, rfl, rfl, .inr ?_⟩
    generalize Stmt.action _ = a at stands
    cases stands
    exact ⟨_, _, _, _, rfl, rfl⟩

theorem Condensed.subset {before after : List (StmtId × Stmt)} (condensed : Condensed before after) :
    after.map Prod.fst ⊆ before.map Prod.fst := by
  induction condensed with
  | nil => exact Subset.refl _
  | keep s rest ih => exact cons_subset_cons _ ih
  | literal stands rest ih =>
    simp only [map_cons, map_append]
    exact cons_subset_cons _ fun id later =>
      mem_append_right _ (ih later)

namespace Method

variable {m n : Method} {id : StmtId} {x : LocalId}

/-! ## Copies -/

theorem Uncopied.copyStep_eq (uncopied : m.Uncopied) {subst : Substitution}
    (empty : ∀ x : LocalId, subst.getD x none = none) {a : Action} (listed : a ∈ m.actions) :
    copyStep subst a = (subst, false) := by
  cases a with
  | assign target value =>
    obtain ⟨head, args⟩ := value
    cases head with
    | read source => exact absurd listed (uncopied.copies target source args)
    | _ => rfl
  | phi target args =>
    rw [copyStep_phi]
    cases sole : soleValue subst target args with
    | none => rfl
    | some value =>
      obtain ⟨other, ⟨arg, member, same⟩, all⟩ := soleValue_eq_some.mp sole
      rw [resolve_of_none (empty _)] at same
      obtain ⟨apart, inside, notValue, notTarget⟩ := uncopied.joins target args listed value
        (same ▸ mem_map_of_mem member) other
      have either := all apart inside
      rw [resolve_of_none (empty _)] at either
      exact absurd either (not_or.mpr ⟨notValue, notTarget⟩)
  | _ => rfl

theorem Tidy.propagateCopies_self (tidy : m.Tidy) (uncopied : m.Uncopied) :
    m.propagateCopies = (m, false) := by
  have pass : ∀ ids ⊆ m.order.toList, ids.foldl m.noteCopy
      (identity m.locals.size, Array.replicate m.stmts.size false) =
        (identity m.locals.size, Array.replicate m.stmts.size false) := by
    intro ids sub
    induction ids with
    | nil => rfl
    | cons id ids ih =>
      have listed : m.action id ∈ m.actions := mem_map_of_mem (sub mem_cons_self)
      have step : m.noteCopy (identity m.locals.size, Array.replicate m.stmts.size false) id =
            (identity m.locals.size, Array.replicate m.stmts.size false) := by
        rw [noteCopy, uncopied.copyStep_eq (getD_identity _) listed]
        rfl
      rw [foldl_cons, step]
      exact ih (subset_of_cons_subset sub)
  have copies : m.copies =
      (identity m.locals.size, Array.replicate m.stmts.size false) :=
    pass _ (Subset.refl _)
  have empty : (identity m.locals.size).isIdentity = true :=
    isIdentity_iff.mpr (getD_identity _)
  rw [propagateCopies_eq, copies, if_pos empty, removeWhere_none tidy.plain]
  intro id _
  exact getD_replicate ..

theorem InSsa.removeCopies_removeCopies (inSsa : m.InSsa) :
    m.removeCopies.removeCopies = m.removeCopies := by
  obtain ⟨replaces, uncopied, needed⟩ := inSsa.removeCopies
  have inSsa' := replaces.inSsa
  generalize m.removeCopies = n at inSsa' uncopied needed
  have round : n.propagateAll (n.order.size + 1) = n := by
    rw [Method.propagateAll, inSsa'.tidy.propagateCopies_self uncopied]
    rfl
  have swept : n.sweep = n.removeWhere n.swept := rfl
  rw [Method.removeCopies, round, swept]
  refine removeWhere_none inSsa'.tidy.plain fun id member => ?_
  rw [← Bool.not_eq_true, inSsa'.swept_iff member]
  rintro ⟨deletable, x, defines, unneeded⟩
  exact unneeded (needed _ (mem_map_of_mem member) deletable x defines)

/-! ## Constants -/

def Unjoined (m : Method) (x : LocalId) : Prop := ∀ a ∈ m.actions, x ∉ joined a

/-- An assignment copies a constant that is written where it is read, to a local that no join reads.
-/
def CopiesConstant (m : Method) : Prop :=
  ∃ target source args type value rest,
    .assign target (.node (.read source) args) ∈ m.actions ∧
      .assign source (.node (.const type value) rest) ∈ m.actions ∧
        m.Unjoined source ∧ m.Unjoined target

theorem unjoined_iff (known : x < m.locals.size) : m.useCounts.2.getD x 0 = 0 ↔ m.Unjoined x := by
  rw [getD_useCounts_joined, if_pos known, count_eq_zero, mem_flatMap]
  simp [Unjoined]

/-- A constant that is defined is written where it is read unless a join reads the local. -/
theorem isSome_constantOf? {a : Action} : (m.constantOf? m.useCounts.2 a).isSome = true ↔
    ∃ target type value args, a = .assign target (.node (.const type value) args) ∧
      m.useCounts.2.getD target 0 = 0 := by
  unfold constantOf?
  split
  next target type value args =>
    split
    next joined =>
      refine ⟨nofun, ?_⟩
      rintro ⟨target', type', value', args', same, unjoined⟩
      cases same
      omega
    next unjoined =>
      exact ⟨fun _ => ⟨target, type, value, args, rfl, by omega⟩, fun _ => rfl⟩
  next other =>
    refine ⟨nofun, ?_⟩
    rintro ⟨target, type, value, args, rfl, -⟩
    exact absurd rfl (other target type value args)

theorem InSsa.unjoined_inlineConstants (inSsa : m.InSsa) :
    m.inlineConstants.Unjoined x ↔ m.Unjoined x := by
  have rewrites := inSsa.rewrites_inlineConstants
  have joins : ∀ a : Action, joined (a.mapReads m.constantTable fun l => l) = joined a := by
    intro a
    cases a with
    | phi target args => simp [Action.mapReads, joined, Action.phiArgs]
    | _ => rfl
  constructor
  · intro unjoined a listed
    obtain ⟨id, linked, rfl⟩ := mem_map.mp listed
    by_cases goes : m.isConstant id = true
    · obtain ⟨target, type, value, args, same, -⟩ := isSome_constantOf?.mp goes
      rw [same]
      exact not_mem_nil
    · have member : id ∈ m.inlineConstants.order.toList := by
        rw [rewrites.order]
        exact mem_filter.mpr ⟨linked, by simpa using goes⟩
      have same := unjoined _ (mem_map_of_mem member)
      rw [rewrites.action id member] at same
      rwa [← joins]
  · intro unjoined a listed
    obtain ⟨id, member, rfl⟩ := mem_map.mp listed
    rw [rewrites.action id member]
    have same := unjoined _ (rewrites.mem_actions member).1
    rwa [← joins] at same

theorem Tidy.inlineConstants_self (tidy : m.Tidy) (none : ∀ id ∈ m.order.toList,
    m.isConstant id = false) : m.inlineConstants = m := by
  have empty : ∀ l : LocalId, m.constants.getD l Option.none = Option.none := by
    intro l
    by_contra noted
    obtain ⟨e, noted⟩ := Option.ne_none_iff_exists'.mp noted
    obtain ⟨a, listed, constant⟩ := exists_of_getD_constants noted
    obtain ⟨id, linked, rfl⟩ := mem_map.mp listed
    have stays := none id linked
    rw [isConstant, constant] at stays
    cases stays
  have unfolded : m.inlineConstants = (m.removeWhere m.isConstant).mapActions fun a =>
      a.mapOperands (Expr.mapNodes fun e =>
        (e.local?.bind fun l => m.constants.getD l Option.none).getD e) := rfl
  rw [unfolded, removeWhere_none tidy.plain none]
  refine mapActions_self fun id _ => Action.mapOperands_self (Expr.mapNodes_self fun e => ?_) _
  cases e.local? with
  | none => rfl
  | some l =>
    rw [Option.bind_some, empty]
    rfl

theorem InSsa.copiesConstant_of_left (inSsa : m.InSsa)
    (member : id ∈ m.inlineConstants.order.toList)
    (constant : m.inlineConstants.isConstant id = true) : m.CopiesConstant := by
  have rewrites := inSsa.rewrites_inlineConstants
  obtain ⟨listed, stays⟩ := rewrites.mem_actions member
  obtain ⟨target, type, value, args, same, unread⟩ := isSome_constantOf?.mp constant
  have action := rewrites.action id member
  rw [same] at action
  have defines : (m.action id).defines? = some target := by
    have own := congrArg Action.defines? action
    rw [Action.defines?_mapReads] at own
    exact own.symm
  have known := inSsa.known _ listed target defines
  have unjoined : m.Unjoined target := by
    rwa [unjoined_iff (rewrites.size ▸ known), inSsa.unjoined_inlineConstants] at unread
  cases before : m.action id with
  | assign target' e =>
    rw [before] at listed action defines
    obtain rfl := Option.some.inj defines
    have proper := inSsa.proper.operands _ listed e mem_cons_self
    have read : Expr.node (.const type value) args =
        if e.isMissing then e else e.mapReads m.constantTable := (Action.assign.inj action).2
    cases proper with
    | @leaf head isLeaf =>
      cases head with
      | read source =>
        have read : Expr.node (.const type value) args = m.constantTable source := read
        unfold constantTable at read
        cases noted : m.constants.getD source none with
        | none =>
          rw [noted] at read
          cases read
        | some e =>
          obtain ⟨a, there, found⟩ := exists_of_getD_constants noted
          obtain ⟨type', kind, value', rfl, -, unread'⟩ := inSsa.constantOf?_eq_some there found
          exact ⟨target', source, [], type', value', [], listed, there,
            (unjoined_iff (inSsa.known _ there source rfl)).mp unread', unjoined⟩
      | missing | caught | this | param => cases read
      | _ => cases isLeaf
    | @inner head operands inner =>
      have here : (Expr.node head operands).isMissing = false := by
        cases head with
        | missing => cases inner
        | _ => rfl
      rw [here, if_neg Bool.false_ne_true, Expr.mapReads_inner inner] at read
      obtain ⟨rfl, -⟩ := Expr.node.inj read
      -- A constant of the method itself goes in the first run.
      have goes : m.isConstant id = true := isSome_constantOf?.mpr
        ⟨target', type, value, operands, before, (unjoined_iff known).mpr unjoined⟩
      rw [goes] at stays
      cases stays
  | _ =>
    rw [before] at action
    cases action

theorem InSsa.exists_left_of_copiesConstant (inSsa : m.InSsa) (copies : m.CopiesConstant) :
    ∃ id ∈ m.inlineConstants.order.toList, m.inlineConstants.isConstant id = true := by
  obtain ⟨target, source, args, type, value, rest, copied, defined, unjoinedSource, unjoined⟩ :=
    copies
  have rewrites := inSsa.rewrites_inlineConstants
  obtain ⟨id, linked, action⟩ := mem_map.mp copied
  have listed : m.action id ∈ m.actions := mem_map_of_mem linked
  have stays : m.isConstant id = false := by
    rw [← Bool.not_eq_true]
    intro goes
    obtain ⟨_, _, _, _, same, -⟩ := isSome_constantOf?.mp goes
    rw [action] at same
    cases same
  have member : id ∈ m.inlineConstants.order.toList := by
    rw [rewrites.order]
    exact mem_filter.mpr ⟨linked, by rw [stays]; rfl⟩
  refine ⟨id, member, isSome_constantOf?.mpr ?_⟩
  have knownSource := inSsa.known _ defined source rfl
  have known := inSsa.known _ copied target rfl
  obtain ⟨⟨target', e⟩, constant⟩ := Option.isSome_iff_exists.mp (isSome_constantOf?.mpr
    ⟨source, type, value, rest, rfl, (unjoined_iff knownSource).mpr unjoinedSource⟩)
  obtain ⟨type', kind, value', same, rfl, -⟩ := inSsa.constantOf?_eq_some defined constant
  obtain rfl := (Action.assign.inj same).1
  have table : m.constantTable source = .leaf (.const { type' with kind } value') := by
    rw [constantTable, inSsa.getD_constants defined constant]
    rfl
  obtain rfl : args = [] := by
    cases inSsa.proper.operands _ copied _ mem_cons_self with
    | leaf => rfl
    | inner inner => cases inner
  refine ⟨target, { type' with kind }, value', [], ?_, ?_⟩
  · rw [rewrites.action id member, action]
    exact congrArg (Action.assign target) table
  · rwa [unjoined_iff (rewrites.size ▸ known), inSsa.unjoined_inlineConstants]

/-- Writing constants where they are read a second time changes nothing, unless an assignment copies
such a constant to a local that no join reads. -/
theorem InSsa.inlineConstants_inlineConstants (inSsa : m.InSsa) :
    m.inlineConstants.inlineConstants = m.inlineConstants ↔ ¬ m.CopiesConstant := by
  have inSsa' := inSsa.inlineConstants.1
  constructor
  · intro same copies
    obtain ⟨id, member, constant⟩ := inSsa.exists_left_of_copiesConstant copies
    have left := member
    rw [← same, inSsa'.rewrites_inlineConstants.order] at left
    have stays := (mem_filter.mp left).2
    rw [constant] at stays
    cases stays
  · intro none
    refine inSsa'.tidy.inlineConstants_self fun id member => ?_
    rw [← Bool.not_eq_true]
    exact fun constant => none (inSsa.copiesConstant_of_left member constant)

/-! ## Array literals -/

theorem isSome_literalElements? {size : Nat} {type : Ty} {behind : List StmtId} :
    (literalElements? m x size type behind).isSome =
      behind.head?.any fun next => (m.action next).startsFilling x size type := by
  unfold literalElements?
  cases behind with
  | nil => simp [leadingStores]
  | cons next rest =>
    dsimp only [head?_cons, Option.any_some]
    unfold leadingStores Action.startsFilling
    cases m.action next with
    | fillArray array data =>
      by_cases fits : array.local? = some x ∧ data.elements.length = size
      · simp [fits]
      · simp [fits, elementStore?]
    | store place value =>
      by_cases short : size ≤ maxLiteral
      · cases stored : elementStore? x size type (.store place value) <;> simp [short, stored]
      · simp [short]
    | _ => simp [elementStore?]

/-- No literal is made at a statement. -/
def Unfilled (m : Method) (id : StmtId) : Prop :=
  ∀ target desc size rest count, m.action id = .assign target (.node (.newArray desc) (size :: rest)) →
    size.constInt? = some count → 0 < count → ((m.onward id).tail.head?.any fun next =>
      (m.action next).startsFilling target count.toNat (.ofDesc (elementDesc desc))) = false

theorem Unfilled.literalAt_self (unfilled : m.Unfilled id) : m.literalAt id = m := by
  unfold literalAt
  split
  next target desc size rest here =>
    split
    · rfl
    next count counted =>
      split
      · rfl
      next proper =>
        have positive : 0 < count := by
          by_contra small
          simp [show count ≤ 0 by omega] at proper
        have none := unfilled target desc size rest count here counted positive
        rw [← isSome_literalElements?, Option.isSome_eq_false_iff, Option.isNone_iff_eq_none]
          at none
        dsimp only
        rw [none]
  · rfl

theorem Tidy.unfilled_of_literalAt_self (tidy : m.Tidy) (member : id ∈ m.order.toList)
    (same : m.literalAt id = m) : m.Unfilled id := by
  intro target desc size rest count here counted positive
  rw [← Bool.not_eq_true, ← isSome_literalElements?]
  intro found
  obtain ⟨⟨elements, gone⟩, found⟩ := Option.isSome_iff_exists.mp found
  have attached : m.isDetached id = false := by
    unfold isDetached
    rw [tidy.plain]
  have made : m.literalAt id = (m.removeWhere gone.contains).setAction id
      (.assign target (.node (.arrayLiteral desc) elements)) := by
    unfold literalAt
    rw [here]
    simp [counted, attached, found, Int.not_le.mpr positive]
  obtain ⟨placed, -, equal, -⟩ := removeWhere_with tidy gone.contains
  have known : id < (m.removeWhere gone.contains).stmts.size := by
    rw [equal]
    exact tidy.made id member
  have action := congrArg (fun n : Method => n.action id) (made.symm.trans same)
  rw [action_setAction, if_pos ⟨rfl, known⟩, here] at action
  cases action

theorem unfilled_of_not_newArray
    (other : ∀ target desc args, m.action id ≠ .assign target (.node (.newArray desc) args)) :
    m.Unfilled id :=
  fun target desc size rest _ here => absurd here (other target desc (size :: rest))

theorem Unfilled.of_condensed (unfilled : m.Unfilled id) (same : n.action id = m.action id)
    (condensed : Condensed ((m.onward id).tail.map fun id => (id, m.stmt id))
      ((n.onward id).tail.map fun id => (id, n.stmt id))) : n.Unfilled id := by
  intro target desc size rest count here counted positive
  have before := unfilled target desc size rest count (same ▸ here) counted positive
  generalize (m.onward id).tail = behind at before condensed
  generalize (n.onward id).tail = behind' at condensed ⊢
  rcases condensed.head with
    ⟨-, empty⟩ | ⟨next, s, t, first, second, front, front', stays | ⟨x, value, y, value', -, assigned⟩⟩
  · rw [map_eq_nil_iff.mp empty]
    rfl
  all_goals
    obtain ⟨other, later, rfl, equal, -⟩ := map_eq_cons_iff.mp front
    obtain ⟨other', later', rfl, equal', -⟩ := map_eq_cons_iff.mp front'
    obtain ⟨rfl, rfl⟩ := Prod.mk.inj equal
    obtain ⟨rfl, rfl⟩ := Prod.mk.inj equal'
    dsimp only [head?_cons, Option.any_some] at before ⊢
  · rwa [action, stays]
  · rw [action, assigned]
    exact Bool.and_false _

theorem Literals.unfilled {before live : List StmtId} (run : Literals before live m n) :
    n.Tidy ∧ ∀ id ∈ live, n.Unfilled id := by
  induction run with
  | done tidy => exact ⟨tidy, fun id contrary => absurd contrary not_mem_nil⟩
  | @keep before rest s m n tidy body new same run ih =>
    obtain ⟨target, later⟩ := ih
    obtain ⟨order, stmts, result, condensed, others⟩ := run.condensed
    have tail : (n.onward s).tail = order :=
      tail_onward target (show n.order.toList = before ++ s :: order by simp [result])
    refine ⟨target, forall_mem_cons.mpr ⟨?_, later⟩⟩
    refine (tidy.unfilled_of_literalAt_self (by simp [body]) same).of_condensed
      (congrArg Stmt.action (others s new)) ?_
    rwa [tail_onward tidy body, tail]
  | @make before gone after s m n made new apart inert stands equal changed run ih =>
    obtain ⟨target, later⟩ := ih
    obtain ⟨order, stmts, result, condensed, others⟩ := run.condensed
    refine ⟨target, forall_mem_cons.mpr ⟨?_, fun id inside => ?_⟩⟩
    · refine unfilled_of_not_newArray fun target desc args => ?_
      rw [action, others s fun inside => new (mem_append_right _ inside), changed, if_pos rfl]
      generalize m.action s = a at stands
      cases stands
      intro same
      cases same
    · rcases mem_append.mp inside with gone_ | left
      · refine unfilled_of_not_newArray fun target desc args => ?_
        rw [action, others id (apart id gone_), changed, if_neg]
        · exact inert id gone_ target _
        · rintro rfl
          exact new inside
      · exact later id left

theorem Tidy.makeArrayLiterals_makeArrayLiterals (tidy : m.Tidy) :
    m.makeArrayLiterals.makeArrayLiterals = m.makeArrayLiterals := by
  have unfilled := tidy.literals_makeArrayLiterals.unfilled.2
  have ids : ∀ m : Method, m.body.map Prod.fst = m.order.toList := by
    intro m
    simp [body, Function.comp_def]
  have fewer := (condensed_makeArrayLiterals tidy).1.subset
  rw [ids, ids] at fewer
  rw [makeArrayLiterals_eq m.makeArrayLiterals]
  exact foldl_self fun id member => (unfilled id (fewer member)).literalAt_self

/-! ## All passes -/

/-- Running a clean-up pass a second time, right after itself, leaves the method as the first run
left it. Only constants can be written where they are read a second time: this changes the method
just when an assignment copies a constant that is written where it is read, to a local that no join
reads. -/
theorem cleanUps_idempotent (inSsa : m.InSsa)
    (placed : ∀ l ∈ m.mentioned, (m.find? l).isSome = true) :
    m.cleanLabels.cleanLabels = m.cleanLabels ∧ m.removeDeadCode.removeDeadCode = m.removeDeadCode ∧
    m.removeCopies.removeCopies = m.removeCopies ∧
    (m.inlineConstants.inlineConstants = m.inlineConstants ↔ ¬ m.CopiesConstant) ∧
    m.makeArrayLiterals.makeArrayLiterals = m.makeArrayLiterals := by
  have handlers : ∀ t ∈ m.traps, (m.find? t.handler).isSome = true := fun t member =>
    placed t.handler (mentioned_of_trap member (.inr (.inr rfl)))
  refine ⟨?_, ?_, ?_, ?_, ?_⟩
  · exact inSsa.tidy.cleanLabels_cleanLabels
  · exact inSsa.tidy.removeDeadCode_removeDeadCode handlers
  · exact inSsa.removeCopies_removeCopies
  · exact inSsa.inlineConstants_inlineConstants
  · exact inSsa.tidy.makeArrayLiterals_makeArrayLiterals

/-- Waits for a copy of one to become zero. -/
def waiting : Method :=
  { owner := ∅, name := ∅, desc := ∅, access := default, params := [], result := ∅
    locals := Array.replicate 2 { type := .int }
    stmts := #[
      ⟨.assign 0 (.number .int 1), none⟩,
      ⟨.assign 1 (.read 0), none⟩,
      ⟨.label (.number 0), none⟩,
      ⟨.branch .ne (.read 1) none (.number 0), none⟩,
      ⟨.return (some (.read 1)), none⟩]
    order := #[0, 1, 2, 3, 4]
    placed := #[some 2] }

/-- The first run leaves the copy as a constant, and the second takes it out. -/
theorem inlineConstants_twice_waiting :
    waiting.inlineConstants.actions.map Action.uses = [[], [], [1], [1]] ∧
      waiting.inlineConstants.inlineConstants.actions.map Action.uses = [[], [], []] ∧
        waiting.inlineConstants.inlineConstants ≠ waiting.inlineConstants := by
  refine ⟨by decide, by decide, fun same => ?_⟩
  have sizes : waiting.inlineConstants.inlineConstants.order.size ≠
      waiting.inlineConstants.order.size := by decide
  exact sizes (congrArg (fun m : Method => m.order.size) same)

def waitingNotes (position : Nat) : Note :=
  { known := range (min 2 position)
    ways :=
      if position < 2 then Note.entry.ways
      else [((.nowhere, false), [0, 1]), ((.number 0, false), [0, 1])] }

/-- All passes but one leave the loop alone the second time. -/
theorem cleanUps_idempotent_waiting :
    (waiting.InSsa ∧ ∀ l ∈ waiting.mentioned, (waiting.find? l).isSome = true) ∧
    waiting.cleanLabels.cleanLabels = waiting.cleanLabels ∧
    waiting.removeDeadCode.removeDeadCode = waiting.removeDeadCode ∧
    waiting.removeCopies.removeCopies = waiting.removeCopies ∧
    waiting.inlineConstants.inlineConstants ≠ waiting.inlineConstants ∧
    waiting.makeArrayLiterals.makeArrayLiterals = waiting.makeArrayLiterals := by
  have noted : waiting.Noted waitingNotes := by with_unfolding_all decide
  have inSsa : waiting.InSsa := noted.inSsa (by decide) (by decide)
    (by decide) (by decide) (by decide)
  have placed : ∀ l ∈ waiting.mentioned, (waiting.find? l).isSome = true := by decide
  obtain ⟨labels, dead, copies, constants, arrays⟩ := cleanUps_idempotent inSsa placed
  refine ⟨⟨inSsa, placed⟩, labels, dead, copies, fun same => constants.mp same ?_, arrays⟩
  refine ⟨1, 0, [], .int, .number 1, [], ?_, ?_, ?_, ?_⟩
  · exact mem_map.mpr ⟨1, by decide, rfl⟩
  · exact mem_map.mpr ⟨0, by decide, rfl⟩
  · unfold Unjoined
    decide
  · unfold Unjoined
    decide

end Method

end DexLift.Ir
