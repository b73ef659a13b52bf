import DexLift.Proofs.Resolve.Descriptors

/-!
# Inferred types at joins

Types of locals are inferred in two passes over kinds and descriptors. When a round
after the last one would change no descriptor, the inferred type of each join and copy
is one that the types of its operands can be used for. This is so unless references
come out of arrays or locals come with descriptors that they are not assigned: then the
number of rounds may be too small, and the types are those of the last round.
-/

namespace DexLift

open List

variable {fuel : Nat} {last : Typing} {x : LocalId}

theorem Outcome.foldlM_keeps {α β : Type} {step : β → α → Outcome β} (keeps : β → Prop)
    {values : List α} (each : ∀ a ∈ values, ∀ b c, keeps b → step b a = .ok c → keeps c) {b c : β}
    (start : keeps b) (ran : values.foldlM step b = .ok c) : keeps c := by
  induction values generalizing b with
  | nil =>
    cases ran
    exact start
  | cons a values ih =>
    obtain ⟨here, later⟩ := forall_mem_cons.mp each
    rw [foldlM_cons] at ran
    obtain ⟨second, first, ran⟩ := Outcome.bind_ok.mp ran
    exact ih later (here b second start first) ran

namespace Ir

open Hierarchy (known)

theorem Kind.inter_ref : ∀ k : Kind, Kind.ref.inter k = .ref ∨ Kind.ref.inter k = .bottom := by
  have all : ∀ b : BitVec 8, 16#8 &&& b = 16#8 ∨ 16#8 &&& b = 0#8 := by decide
  rintro ⟨⟨b⟩⟩
  exact (all b).imp (congrArg fun b => Kind.mk ⟨b⟩) (congrArg fun b => Kind.mk ⟨b⟩)

theorem Kind.bottom_inter (k : Kind) : Kind.bottom.inter k = .bottom :=
  congrArg Kind.mk (UInt8.zero_and)

namespace Typing

variable {m : Method} {h : Option Hierarchy} {t next : Typing}

theorem SameKinds.eq_of_unchanged (same : t.SameKinds next) (descs : next.descs = t.descs)
    (guessed : next.guessed = t.guessed) : next = t := by
  obtain ⟨group, kinds, declared, -⟩ := same
  cases next
  cases t
  simp_all

/-! ## All rounds -/

/-- One more round changes no descriptor. -/
def Settled (m : Method) (h : Option Hierarchy) (t : Typing) : Prop :=
  ∃ next, m.actions.foldlM (describeBy m h) t = .ok next ∧ next.descs = t.descs

theorem rulesOf_sublist (t : Typing) (m : Method) (actions : List Action) :
    ((t.rulesOf m actions).map Prod.fst).Sublist (actions.filterMap Action.defines?) := by
  induction actions with
  | nil => exact .slnil
  | cons a actions ih =>
    rw [rulesOf, filterMap_cons]
    cases found : (a.rule? m).filter fun rule => t.kindOf rule.1 == .ref with
    | none =>
      exact ih.trans ((sublist_cons_self a actions).filterMap _)
    | some rule =>
      have listed := rule?_fst (Option.eq_some_of_filter_eq_some found)
      rw [filterMap_cons_some listed]
      exact ih.cons_cons _

/-- What rounds do to descriptors: after `n` of them the descriptor of each local stands above
everything that has come to it in so many steps, and above nothing but what comes to it. -/
structure Spread (m : Method) (h : Option Hierarchy) (start : LocalId → Text) (n : Nat)
    (t : Typing) : Prop where
  bounded : Rule.Bounded (known h).Below (t.rulesOf m m.actions) start t.descOf
  filled : ∀ x, Rule.Filled (known h).Below (t.rulesOf m m.actions) start n t.descOf x
  kept : ∀ x ∉ (t.rulesOf m m.actions).map Prod.fst, t.descOf x = start x

variable {start : LocalId → Text} {n : Nat}

theorem Spread.zero
    (bounded : Rule.Bounded (known h).Below (t.rulesOf m m.actions) t.descOf t.descOf) :
    t.Spread m h t.descOf 0 := by
  refine ⟨bounded, fun x d v feeds few => ?_, fun _ _ => rfl⟩
  obtain rfl := Nat.le_zero.mp few
  cases feeds
  exact Hierarchy.below_refl _

section

variable (spread : t.Spread m h start n) (tree : (known h).IsTree)
  (once : (m.actions.filterMap Action.defines?).Nodup)

include spread tree once

theorem Spread.round (same : t.SameKinds next)
    (round : Rule.Round (known h).Below (t.rulesOf m m.actions) t.descOf next.descOf) :
    next.Spread m h start (n + 1) := by
  have distinct := once.sublist (t.rulesOf_sublist m m.actions)
  refine ⟨?_, ?_, ?_⟩ <;> rw [same.rulesOf]
  · exact spread.bounded.round (Subset.refl _) round
  · exact round.filled_all Hierarchy.below_refl tree.below_trans distinct spread.filled spread.kept
  · exact fun x free => (round.kept free).trans (spread.kept x free)

theorem Spread.settled (regular : t.Regular m.actions) (enough : (t.rulesOf m m.actions).length ≤ n) :
    t.Settled m h := by
  have distinct := once.sublist (t.rulesOf_sublist m m.actions)
  obtain ⟨next, ran, round⟩ := regular.exists_round tree
  have filled : ∀ x, Rule.Filled (known h).Below (t.rulesOf m m.actions) start
      (t.rulesOf m m.actions).length t.descOf x := fun x d v feeds few =>
    spread.filled x d v feeds (le_trans few enough)
  refine ⟨next, ran, descs_eq (describe_spec ran).1.size ?_⟩
  exact round.eq_of_filled Hierarchy.below_refl tree.below_trans tree.below_antisymm distinct
    spread.bounded filled spread.kept

end

theorem solveDescs_succ {now : Typing} (ran : m.actions.foldlM (describeBy m h) t = .ok now) :
    Typing.solveDescs m h (fuel + 1) t =
      if now.descs = t.descs ∧ now.guessed = t.guessed then .ok now
      else Typing.solveDescs m h fuel now := by
  rw [Typing.solveDescs, ran]
  rfl

theorem sameKinds_solveDescs (solved : Typing.solveDescs m h fuel t = .ok next) :
    t.SameKinds next := by
  induction fuel generalizing t with
  | zero =>
    cases solved
    exact .refl _
  | succ fuel ih =>
    obtain ⟨now, ran, -⟩ := Outcome.bind_ok.mp solved
    have same := (describe_spec ran).1
    rw [solveDescs_succ ran] at solved
    split at solved
    · cases solved
      exact same
    · exact same.trans (ih solved)

theorem Spread.solveDescs (spread : t.Spread m h start n) (tree : (known h).IsTree)
    (once : (m.actions.filterMap Action.defines?).Nodup) (regular : t.Regular m.actions)
    (solved : solveDescs m h fuel t = .ok next) :
    (∃ n, next.Spread m h start n) ∧ (next.Settled m h ∨ next.Spread m h start (n + fuel)) := by
  induction fuel generalizing t n with
  | zero =>
    cases solved
    exact ⟨⟨n, spread⟩, .inr spread⟩
  | succ fuel ih =>
    obtain ⟨now, ran, round⟩ := regular.exists_round tree
    have same := (describe_spec ran).1
    have further := spread.round tree once same round
    rw [solveDescs_succ ran] at solved
    split at solved
    next unchanged =>
      cases solved
      have equal : next = t := same.eq_of_unchanged unchanged.1 unchanged.2
      exact ⟨⟨n + 1, further⟩, .inl ⟨next, by rw [equal] at ran ⊢; exact ran, rfl⟩⟩
    next =>
      obtain ⟨ends, result⟩ := ih further (regular.follow same) solved
      refine ⟨ends, ?_⟩
      rwa [Nat.add_right_comm] at result

/-! ## Kinds -/

/-- A typing that leaves fewer kinds; what was a reference stays one unless nothing is left for it. -/
structure Narrows (t next : Typing) : Prop where
  group : next.group = t.group
  descs : next.descs = t.descs
  refs : ∀ x, t.kindOf x = .ref → next.kindOf x = .ref ∨ next.kindOf x = .bottom
  bottoms : ∀ x, t.kindOf x = .bottom → next.kindOf x = .bottom

theorem Narrows.refl (t : Typing) : t.Narrows t := ⟨rfl, rfl, fun _ => .inl, fun _ => id⟩

theorem Narrows.trans (first : t.Narrows next) (second : next.Narrows last) :
    t.Narrows last where
  group := second.group.trans first.group
  descs := second.descs.trans first.descs
  refs x isRef := (first.refs x isRef).elim (second.refs x) fun none => .inr (second.bottoms x none)
  bottoms x none := second.bottoms x (first.bottoms x none)

theorem narrows_narrow (t : Typing) (id : LocalId) (kind : Kind) : t.Narrows (t.narrow id kind) := by
  have either : ∀ x, (t.narrow id kind).kindOf x = t.kindOf x ∨
      (t.narrow id kind).kindOf x = (t.kindOf x).inter kind := by
    intro x
    simp only [kindOf, narrow, getD_modify]
    split
    · exact .inr rfl
    · exact .inl rfl
  refine ⟨rfl, rfl, fun x isRef => ?_, fun x none => ?_⟩
  · rcases either x with same | fewer
    · exact .inl (same.trans isRef)
    · rw [fewer, isRef]
      exact Kind.inter_ref kind
  · rcases either x with same | fewer
    · exact same.trans none
    · rw [fewer, none]
      exact Kind.bottom_inter kind

theorem narrows_narrowRead (t : Typing) (e : Expr) (kind : Kind) :
    t.Narrows (t.narrowRead e kind) := by
  unfold narrowRead
  split
  · exact narrows_narrow t _ kind
  · exact .refl t

theorem narrows_narrowBy (m : Method) (t : Typing) (a : Action) : t.Narrows (narrowBy m t a) := by
  have operands : ∀ (operands : List Operand) (t : Typing), t.Narrows (operands.foldl (fun t o =>
      if o.expected.kind = .bottom then t else t.narrowRead o.expr o.expected.kind) t) := by
    intro operands
    induction operands with
    | nil => exact .refl
    | cons o operands ih =>
      intro t
      rw [foldl_cons]
      refine .trans ?_ (ih _)
      split
      · exact .refl t
      · exact narrows_narrowRead t _ _
  unfold narrowBy
  refine (operands (m.operands a) t).trans ?_
  cases a with
  | assign target value | identity target value => exact narrows_narrow _ _ _
  | branch cond left right target =>
    cases right with
    | none => exact .refl _
    | some right => exact (narrows_narrowRead _ _ _).trans (narrows_narrowRead _ _ _)
  | _ => exact .refl _

theorem solveKinds_spec (some_ : 0 < fuel) (solved : solveKinds m fuel t = .ok next) :
    t.Narrows next ∧ ∀ x < m.locals.size, next.kindOf x ≠ .bottom := by
  induction fuel generalizing t with
  | zero => cases some_
  | succ fuel ih =>
    have narrows : ∀ (actions : List Action) (t : Typing),
        t.Narrows (actions.foldl (narrowBy m) t) := by
      intro actions
      induction actions with
      | nil => exact .refl
      | cons a actions ih =>
        exact fun t => (narrows_narrowBy m t a).trans (ih _)
    rw [solveKinds] at solved
    split at solved
    · cases solved
    next none =>
    have left : ∀ x < m.locals.size, (m.actions.foldl (narrowBy m) t).kindOf x ≠ .bottom := by grind
    split at solved
    · cases solved
      exact ⟨narrows m.actions t, left⟩
    · cases fuel with
      | zero =>
        cases solved
        exact ⟨narrows m.actions t, left⟩
      | succ fuel =>
        obtain ⟨later, result⟩ := ih (Nat.succ_pos fuel) solved
        exact ⟨(narrows m.actions t).trans later, result⟩

theorem kindOf_settle (isRef : t.kindOf x = .ref) : t.settle.kindOf x = .ref := by
  unfold kindOf settle at *
  rw [Array.getD_eq_getD_getElem?] at isRef ⊢
  rw [Array.getElem?_map]
  cases found : t.kinds[t.group.getD x x]? with
  | none =>
    rw [found] at isRef
    cases isRef
  | some kind =>
    rw [found] at isRef
    obtain rfl : kind = .ref := isRef
    rfl

/-! ## Groups -/

/-- A typing with the same descriptors and greater groups. -/
structure Groups (t next : Typing) : Prop where
  descs : next.descs = t.descs
  size : next.group.size = t.group.size
  group : ∀ x < t.group.size, ∀ y < t.group.size, t.group.getD x x = t.group.getD y y →
    next.group.getD x x = next.group.getD y y

theorem Groups.refl (t : Typing) : t.Groups t := ⟨rfl, rfl, fun _ _ _ _ => id⟩

theorem Groups.trans (first : t.Groups next) (second : next.Groups last) :
    t.Groups last where
  descs := second.descs.trans first.descs
  size := second.size.trans first.size
  group x inside y within same :=
    second.group x (first.size ▸ inside) y (first.size ▸ within) (first.group x inside y within same)

theorem getD_map_group {group : Array LocalId} (replace : LocalId → LocalId)
    (inside : x < group.size) : (group.map replace).getD x x = replace (group.getD x x) := by
  rw [Array.getD_eq_getD_getElem?, Array.getElem?_map, Array.getD_eq_getD_getElem?,
    Array.getElem?_eq_getElem inside]
  rfl

theorem groups_join (t : Typing) (x y : LocalId) : t.Groups (t.join x y) ∧
    (x < t.group.size → y < t.group.size →
      (t.join x y).group.getD x x = (t.join x y).group.getD y y) := by
  unfold join
  dsimp only
  split
  next same => exact ⟨.refl t, fun _ _ => same⟩
  next differ =>
    refine ⟨⟨rfl, Array.size_map, fun a inside b within same => ?_⟩, fun inside within => ?_⟩
    · rw [getD_map_group _ inside, getD_map_group _ within, same]
    · rw [getD_map_group _ inside, getD_map_group _ within, if_neg differ, if_pos rfl]

end Typing

/-- The locals whose kind what a statement defines shares: the operands of a join, and what is
copied. -/
def Action.joined : Action → List LocalId
  | .phi _ args => args.map PhiArg.value
  | .assign _ (.node (.read source) _) => [source]
  | _ => []

/-- The descriptor of a reference that a local comes with. -/
def Method.brought (m : Method) (x : LocalId) : Text :=
  if (m.localType x).kind = .ref then (m.localType x).desc else ∅

namespace Typing

variable {m : Method} {h : Option Hierarchy} {t next : Typing}

theorem groups_joinBy (t : Typing) (a : Action) : t.Groups (t.joinBy a) ∧
    ∀ x, a.defines? = some x → ∀ y ∈ a.joined, x < t.group.size → y < t.group.size →
      (t.joinBy a).group.getD x x = (t.joinBy a).group.getD y y := by
  have several : ∀ (x : LocalId) (others : List LocalId) (t : Typing),
      t.Groups (others.foldl (fun t y => t.join x y) t) ∧ ∀ y ∈ others, x < t.group.size →
        y < t.group.size → (others.foldl (fun t y => t.join x y) t).group.getD x x =
          (others.foldl (fun t y => t.join x y) t).group.getD y y := by
    intro x others
    induction others with
    | nil => exact fun t => ⟨.refl t, nofun⟩
    | cons y others ih =>
      intro t
      obtain ⟨groups, here⟩ := groups_join t x y
      obtain ⟨more, there⟩ := ih (t.join x y)
      refine ⟨groups.trans more, forall_mem_cons.mpr ⟨fun inside within => ?_,
        fun z member inside within => ?_⟩⟩
      · exact more.group x (groups.size ▸ inside) y (groups.size ▸ within) (here inside within)
      · exact there z member (groups.size ▸ inside) (groups.size ▸ within)
  cases a with
  | phi target args =>
    have result := several target (args.map PhiArg.value) t
    rw [foldl_map] at result
    refine ⟨result.1, fun x defines => ?_⟩
    cases defines
    exact result.2
  | assign target value =>
    obtain ⟨head, args⟩ := value
    cases head with
    | read source =>
      refine ⟨(groups_join t target source).1, fun x defines y member inside within => ?_⟩
      cases defines
      cases mem_singleton.mp member
      exact (groups_join t target source).2 inside within
    | _ => exact ⟨.refl t, fun _ _ => nofun⟩
  | _ => exact ⟨.refl t, fun _ _ => nofun⟩

theorem groups_foldl (actions : List Action) (t : Typing) : t.Groups (actions.foldl joinBy t) ∧
    ∀ a ∈ actions, ∀ x, a.defines? = some x → ∀ y ∈ a.joined, x < t.group.size →
      y < t.group.size →
      (actions.foldl joinBy t).group.getD x x = (actions.foldl joinBy t).group.getD y y := by
  induction actions generalizing t with
  | nil => exact ⟨.refl t, nofun⟩
  | cons a actions ih =>
    obtain ⟨groups, here⟩ := groups_joinBy t a
    obtain ⟨more, there⟩ := ih (t.joinBy a)
    refine ⟨groups.trans more, forall_mem_cons.mpr
      ⟨fun x defines y member inside within => ?_, fun b listed x defines y member inside within => ?_⟩⟩
    · exact more.group x (groups.size ▸ inside) y (groups.size ▸ within)
        (here x defines y member inside within)
    · exact there b listed x defines y member (groups.size ▸ inside) (groups.size ▸ within)

theorem ofMethod_spec (m : Method) : (ofMethod m).descs.size = m.locals.size ∧
    (∀ x, (ofMethod m).descOf x = m.brought x) ∧
    ∀ a ∈ m.actions, ∀ x, a.defines? = some x → ∀ y ∈ a.joined, x < m.locals.size →
      y < m.locals.size → (ofMethod m).group.getD x x = (ofMethod m).group.getD y y := by
  let types := m.locals.map Local.type
  let start : Typing :=
    { group := Array.range m.locals.size
      kinds := types.map fun t => if t.kind = .bottom then .top else t.kind
      descs := types.map fun t => if t.kind = .ref then t.desc else ∅
      guessed := Array.replicate m.locals.size false
      declared := types }
  have eq : ofMethod m = m.actions.foldl joinBy start := rfl
  obtain ⟨groups, joined⟩ := groups_foldl m.actions start
  have size : start.group.size = m.locals.size := Array.size_range
  rw [eq]
  refine ⟨?_, fun x => ?_, fun a member x defines y shares inside within => ?_⟩
  · rw [groups.descs, Array.size_map, Array.size_map]
  · rw [descOf, groups.descs]
    change ((m.locals.map Local.type).map _).getD x ∅ = _
    rw [Array.map_map, Array.getD_eq_getD_getElem?, Array.getElem?_map, Method.brought,
      Method.localType, Method.local_, Array.getD_eq_getD_getElem?]
    cases m.locals[x]? <;> rfl
  · exact joined a member x defines y shares (size ▸ inside) (size ▸ within)

/-! ## Writing types -/

def typeOf (t : Typing) (x : LocalId) : Ty :=
  if t.kindOf x = .ref then .refTo (t.descOf x)
  else if t.kindOf x = .int ∧ (t.declared.getD x .top).kind = .int then
    { kind := t.kindOf x, desc := (t.declared.getD x .top).desc }
  else { kind := t.kindOf x }

theorem kind_typeOf (t : Typing) (x : LocalId) : (t.typeOf x).kind = t.kindOf x := by
  unfold typeOf
  split
  next isRef => exact isRef.symm
  next => split <;> rfl

theorem desc_typeOf (isRef : t.kindOf x = .ref) : (t.typeOf x).desc = t.descOf x := by
  rw [typeOf, if_pos isRef]
  rfl

theorem setLocalTypes_spec (m : Method) (types : LocalId → Ty) (ids : List LocalId) :
    ∃ locals : Array Local, ids.foldl (fun m x => m.setLocalType x (types x)) m = { m with locals } ∧
      locals.size = m.locals.size ∧ ∀ x < m.locals.size, ({ m with locals } : Method).localType x =
        if x ∈ ids then types x else m.localType x := by
  induction ids generalizing m with
  | nil => exact ⟨m.locals, rfl, rfl, fun x _ => (if_neg not_mem_nil).symm⟩
  | cons id ids ih =>
    obtain ⟨locals, result, size, each⟩ := ih (m.setLocalType id (types id))
    rw [Method.setLocalType_size] at size each
    refine ⟨locals, result, size, fun x inside => ?_⟩
    refine (each x inside).trans ?_
    have here : (m.setLocalType id (types id)).localType x =
        if x = id then types x else m.localType x := by
      simp only [Method.localType, Method.local_, Method.setLocalType, Array.getD_eq_getD_getElem?,
        Array.getElem?_modify, Array.getElem?_eq_getElem inside]
      by_cases same : x = id
      · subst same
        rw [if_pos rfl, if_pos rfl]
        rfl
      · rw [if_neg (Ne.symm same), if_neg same]
    rw [here]
    by_cases listed : x ∈ ids
    · rw [if_pos listed, if_pos (.tail _ listed)]
    · rw [if_neg listed]
      simp only [mem_cons, listed, or_false]

theorem apply_spec (t : Typing) (m : Method) : ∃ locals : Array Local,
    t.apply m = { m with locals } ∧ locals.size = m.locals.size ∧
      ∀ x, (t.apply m).localType x = if x < m.locals.size then t.typeOf x else .top := by
  obtain ⟨locals, result, size, each⟩ :=
    setLocalTypes_spec m t.typeOf (range m.locals.size)
  have eq : t.apply m = { m with locals } := result
  refine ⟨locals, eq, size, fun x => ?_⟩
  rw [eq]
  by_cases inside : x < m.locals.size
  · rw [each x inside, if_pos (mem_range.mpr inside), if_pos inside]
  · rw [if_neg inside, Method.localType, Method.local_, Array.getD_eq_getD_getElem?,
      Array.getElem?_eq_none (size ▸ Nat.le_of_not_lt inside)]
    rfl

/-- Refining changes no descriptor but the root. -/
theorem refine_spec (refined : refine m h t = .ok next) : t.SameKinds next ∧
    ∀ x, next.descOf x = t.descOf x ∨ t.descOf x = objectDesc := by
  refine Outcome.foldlM_keeps (fun now => t.SameKinds now ∧
    ∀ x, now.descOf x = t.descOf x ∨ t.descOf x = objectDesc) (fun id _ now after kept changed => ?_)
    ⟨.refl t, fun _ => .inl rfl⟩ refined
  obtain ⟨same, old⟩ := kept
  dsimp only at changed
  split at changed
  next guessed =>
    obtain ⟨found, -, changed⟩ := Outcome.bind_ok.mp changed
    cases found with
    | none =>
      cases changed
      exact ⟨same, old⟩
    | some desc =>
      cases changed
      refine ⟨same.trans ⟨rfl, rfl, rfl, Array.size_setIfInBounds⟩, fun x => ?_⟩
      by_cases here : x = id
      · subst here
        simp only [Bool.and_eq_true, beq_iff_eq] at guessed
        exact .inr ((old x).elim (fun kept => kept ▸ guessed.1.1.2) fun root => root)
      · refine (old x).imp_left fun kept => ?_
        rw [← kept, descOf, Array.getD_eq_getD_getElem?,
          Array.getElem?_setIfInBounds_ne (Ne.symm here), descOf, Array.getD_eq_getD_getElem?]
  next =>
    cases changed
    exact ⟨same, old⟩

end Typing

end Ir

end DexLift
