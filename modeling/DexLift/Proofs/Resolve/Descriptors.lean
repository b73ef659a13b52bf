import DexLift.Proofs.Ir.Trails
import DexLift.Proofs.Resolve.Spreading
import DexLift.Proofs.Resolve.Supertypes
import DexLift.Resolve.Types

/-!
# Rounds over descriptors

The descriptors of references are found in rounds over the statements. Where a round
changes none of them, each join has a descriptor above those of its operands. Unless a
reference comes out of an array, each statement gives a fixed descriptor or joins those
of other locals, and so many rounds as there are locals leave nothing to change. Reading
an array is different: around a loop it takes one dimension away in each round.
-/

namespace DexLift

open List

namespace Hierarchy

variable {h : Hierarchy}

/-- A descriptor is null or one that another stands above. -/
def Below (h : Hierarchy) (d c : Text) : Prop := d = ∅ ∨ h.Covers c d

theorem below_refl (d : Text) : h.Below d d := .inr (.refl d)

theorem IsTree.eq_null (tree : h.IsTree) {d : Text} (covers : h.Covers ∅ d) : d = ∅ := by
  generalize null : (∅ : Text) = c at covers
  cases covers with
  | refl => rfl
  | root => cases null
  | climb _ _ climbs =>
    subst null
    rcases tree.of_climbs climbs with same | ⟨first, -⟩
    · exact same.symm
    · cases first
  | array => cases null

theorem IsTree.below_trans (tree : h.IsTree) {a b c : Text} (lower : h.Below a b)
    (upper : h.Below b c) : h.Below a c := by
  rcases lower with null | lower
  · exact .inl null
  rcases upper with rfl | upper
  · exact .inl (tree.eq_null lower)
  · exact .inr (tree.covers_trans upper lower)

theorem IsTree.below_antisymm (tree : h.IsTree) {a b : Text} (up : h.Below a b)
    (down : h.Below b a) : a = b := by
  rcases up with rfl | up
  · rcases down with null | down
    · exact null.symm
    · exact (tree.eq_null down).symm
  rcases down with rfl | down
  · exact tree.eq_null up
  · exact tree.covers_antisymm down up

/-- Whatever stands above two descriptors that are not null stands above what they merge to. -/
theorem IsTree.merge_below {h : Option Hierarchy} (tree : (known h).IsTree) {a b : Text}
    (left : a ≠ ∅) (right : b ≠ ∅) : ∃ m, merge h a b = .ok m ∧
      ∀ c, (known h).Below m c ↔ (known h).Below a c ∧ (known h).Below b c := by
  obtain ⟨m, merged, join⟩ := tree.merge_spec a b
  have notNull : m ≠ ∅ := by
    rintro rfl
    exact left (tree.eq_null ((join ∅).mp (.refl ∅)).1)
  refine ⟨m, merged, fun c => ?_⟩
  rw [Below, or_iff_right notNull, Below, or_iff_right left, Below, or_iff_right right]
  exact join c

end Hierarchy

namespace Ir

open Hierarchy (known)

/-- Whether a statement names an element of an array. -/
def Action.readsElement : Action → Bool
  | .assign _ (.node (.element _) _) | .identity _ (.node (.element _) _) => true
  | _ => false

/-- The descriptor of an expression that says it by itself. -/
def Method.ownDesc (m : Method) (e : Expr) : Text := ((Typing.ofMethod m).refDesc m e).1

/-- Where the descriptor of what a statement defines comes from. -/
def Action.rule? (m : Method) : Action → Option (Rule Text)
  | .phi target args => some (target, .joined (args.map PhiArg.value))
  | .assign target value | .identity target value =>
    some (target, match value.local? with
      | some source => .joined [source]
      | none => .given (m.ownDesc value))
  | _ => none

namespace Typing

variable {actions : List Action}

variable {m : Method} {h : Option Hierarchy} {t next : Typing} {a : Action}

/-! ## One statement -/

/-- Two typings that differ in descriptors and guesses at most. -/
structure SameKinds (t next : Typing) : Prop where
  group : next.group = t.group
  kinds : next.kinds = t.kinds
  declared : next.declared = t.declared
  size : next.descs.size = t.descs.size

theorem SameKinds.refl (t : Typing) : t.SameKinds t := ⟨rfl, rfl, rfl, rfl⟩

theorem SameKinds.trans {last : Typing} (first : t.SameKinds next) (second : next.SameKinds last) :
    t.SameKinds last :=
  ⟨second.group.trans first.group, second.kinds.trans first.kinds,
    second.declared.trans first.declared, second.size.trans first.size⟩

theorem SameKinds.kindOf (same : t.SameKinds next) (x : LocalId) : next.kindOf x = t.kindOf x := by
  rw [Typing.kindOf, Typing.kindOf, same.group, same.kinds]

/-- What a statement says about the descriptor of what it defines. -/
inductive Tells (t : Typing) (m : Method) (h : Option Hierarchy) : Action → Text → Prop where
  | phi {target : LocalId} {args : List PhiArg} {desc : Text}
      (merged : t.mergeArgs h args = .ok desc) : Tells t m h (.phi target args) desc
  | assign (target : LocalId) (value : Expr) : Tells t m h (.assign target value) (t.refDesc m value).1
  | identity (target : LocalId) (value : Expr) :
      Tells t m h (.identity target value) (t.refDesc m value).1

/-- What a statement may change: the descriptor of the reference that it defines. -/
inductive Changes (t : Typing) (m : Method) (h : Option Hierarchy) (a : Action) (next : Typing) :
    Prop where
  | nothing (other : ∀ x, a.defines? = some x → t.kindOf x ≠ .ref) (same : next.descs = t.descs)
  | desc {x : LocalId} {desc : Text} (defines : a.defines? = some x) (isRef : t.kindOf x = .ref)
      (tells : t.Tells m h a desc) (learned : next.descs = t.descs.setIfInBounds x desc)

theorem describeBy_cases (found : describeBy m h t a = .ok next) :
    t.SameKinds next ∧ t.Changes m h a next := by
  have other : ∀ {x : LocalId}, a.defines? = some x → (t.kindOf x != .ref) = true →
      t.SameKinds t ∧ t.Changes m h a t := by
    refine fun {x} defines other => ⟨.refl t, .nothing (fun y also isRef => ?_) rfl⟩
    cases defines.symm.trans also
    exact bne_iff_ne.mp other isRef
  have learned : ∀ {x : LocalId} {desc : Text} {guessed : Array Bool}, a.defines? = some x →
      ¬ (t.kindOf x != .ref) = true → t.Tells m h a desc →
      t.SameKinds { t with descs := t.descs.setIfInBounds x desc, guessed } ∧
        t.Changes m h a { t with descs := t.descs.setIfInBounds x desc, guessed } :=
    fun defines isRef tells => ⟨⟨rfl, rfl, rfl, Array.size_setIfInBounds⟩,
      .desc defines (by simpa using isRef) tells rfl⟩
  cases a with
  | phi target args =>
    rw [describeBy] at found
    dsimp only at found
    split at found
    next notRef => cases found; exact other rfl notRef
    next isRef =>
      obtain ⟨desc, merged, found⟩ := Outcome.bind_ok.mp found
      cases found
      exact learned rfl isRef (.phi merged)
  | assign target value =>
    rw [describeBy] at found
    dsimp only at found
    split at found
    next notRef => cases found; exact other rfl notRef
    next isRef => cases found; exact learned rfl isRef (.assign target value)
  | identity target value =>
    rw [describeBy] at found
    dsimp only at found
    split at found
    next notRef => cases found; exact other rfl notRef
    next isRef => cases found; exact learned rfl isRef (.identity target value)
  | _ =>
    cases found
    exact ⟨.refl t, .nothing nofun rfl⟩

theorem descOf_learned {x : LocalId} {desc : Text} (inside : x < t.descs.size)
    (learned : next.descs = t.descs.setIfInBounds x desc) :
    next.descOf = Function.update t.descOf x desc := by
  funext y
  simp only [descOf, learned, getD_set, inside, and_true, Function.update_apply]

theorem descs_eq (size : next.descs.size = t.descs.size) (same : next.descOf = t.descOf) :
    next.descs = t.descs := by
  refine Array.ext size fun x left right => ?_
  have here := congrFun same x
  rwa [descOf, descOf, Array.getD_eq_getD_getElem?, Array.getD_eq_getD_getElem?,
    Array.getElem?_eq_getElem left, Array.getElem?_eq_getElem right] at here

theorem mergeArgs_spec (tree : (known h).IsTree) (t : Typing) (args : List PhiArg) :
    ∃ desc, t.mergeArgs h args = .ok desc ∧ ∀ c, (known h).Below desc c ↔
      ∀ y ∈ args.map PhiArg.value, (known h).Below (t.descOf y) c := by
  -- The same for operands that are merged into what was merged before.
  have more : ∀ merged, ∃ desc, args.foldlM (fun merged a =>
      let desc := t.descOf a.value
      if desc.isEmpty then (.ok merged : Outcome Text)
      else if merged.isEmpty then .ok desc
      else Hierarchy.merge h merged desc) merged = .ok desc ∧ ∀ c, (known h).Below desc c ↔
        (known h).Below merged c ∧ ∀ y ∈ args.map PhiArg.value, (known h).Below (t.descOf y) c := by
    induction args with
    | nil => exact fun merged => ⟨merged, rfl, fun c => by simp⟩
    | cons arg args ih =>
      intro merged
      obtain ⟨both, first, joins⟩ : ∃ both, (
          let desc := t.descOf arg.value
          if desc.isEmpty then (.ok merged : Outcome Text)
          else if merged.isEmpty then .ok desc
          else Hierarchy.merge h merged desc) = .ok both ∧ ∀ c, (known h).Below both c ↔
            (known h).Below merged c ∧ (known h).Below (t.descOf arg.value) c := by
        dsimp only
        by_cases null : (t.descOf arg.value).isEmpty = true
        · rw [if_pos null]
          have null : t.descOf arg.value = ∅ := Text.ext (isEmpty_iff.mp null)
          exact ⟨merged, rfl, fun c => (and_iff_left (.inl null)).symm⟩
        rw [if_neg null]
        by_cases first : merged.isEmpty = true
        · rw [if_pos first]
          have first : merged = ∅ := Text.ext (isEmpty_iff.mp first)
          exact ⟨_, rfl, fun c => (and_iff_right (.inl first)).symm⟩
        rw [if_neg first]
        have notNull : ∀ {d : Text}, ¬ d.isEmpty = true → d ≠ ∅ := by
          rintro _ some_ rfl
          exact some_ rfl
        exact tree.merge_below (notNull first) (notNull null)
      obtain ⟨desc, rest, least⟩ := ih both
      refine ⟨desc, ?_, fun c => ?_⟩
      · rwa [foldlM_cons, first]
      · rw [least, joins, map_cons, forall_mem_cons, and_assoc]
  obtain ⟨desc, merged, least⟩ := more ∅
  exact ⟨desc, merged, fun c => (least c).trans (and_iff_right (.inl rfl))⟩

theorem refDesc_own {value : Expr} (notRead : value.local? = none)
    (notElement : ∀ type args, value ≠ .node (.element type) args) :
    (t.refDesc m value).1 = m.ownDesc value := by
  obtain ⟨head, args⟩ := value
  cases head with
  | read => cases notRead
  | element type => exact absurd rfl (notElement type args)
  | const type value => cases value <;> rfl
  | _ => rfl

/-- The rules of the references among the locals that statements define. -/
def rulesOf (t : Typing) (m : Method) (actions : List Action) : List (Rule Text) :=
  actions.filterMap fun a => (a.rule? m).filter fun rule => t.kindOf rule.1 == .ref

theorem SameKinds.rulesOf (same : t.SameKinds next) (m : Method) (actions : List Action) :
    next.rulesOf m actions = t.rulesOf m actions := by
  unfold Typing.rulesOf
  simp only [same.kindOf]

theorem rule?_fst {rule : Rule Text} (found : a.rule? m = some rule) :
    a.defines? = some rule.1 := by
  cases a <;> cases found <;> rfl

theorem Tells.step (tree : (known h).IsTree) {desc : Text} (tells : t.Tells m h a desc)
    (plain : a.readsElement = false) {x : LocalId} (defines : a.defines? = some x) :
    ∃ origin, a.rule? m = some (x, origin) ∧ Rule.Step (known h).Below (x, origin) t.descOf
      (Function.update t.descOf x desc) := by
  -- Assignments and what is named at an entry say the same.
  have assigned : ∀ {value : Expr}, (∀ type args, value ≠ .node (.element type) args) →
      Rule.Step (known h).Below (x, match value.local? with
        | some source => .joined [source]
        | none => .given (m.ownDesc value)) t.descOf
        (Function.update t.descOf x (t.refDesc m value).1) := by
    intro value notElement
    cases read : value.local? with
    | none =>
      rw [refDesc_own read notElement]
      exact .given _
    | some source =>
      obtain ⟨head, args⟩ := value
      cases head with
      | read y =>
        cases read
        have told : (t.refDesc m (.node (.read source) args)).1 = t.descOf source := rfl
        rw [told]
        refine .joined fun c => ?_
        rw [forall_mem_singleton]
      | _ => cases read
  cases tells with
  | phi merged =>
    cases defines
    obtain ⟨desc', same, least⟩ := mergeArgs_spec tree t _
    cases merged.symm.trans same
    exact ⟨_, rfl, .joined least⟩
  | assign target value | identity target value =>
    cases defines
    exact ⟨_, rfl, assigned (by rintro type args rfl; cases plain)⟩

theorem exists_describeBy (tree : (known h).IsTree) (m : Method) (t : Typing) (a : Action) :
    ∃ next, describeBy m h t a = .ok next := by
  cases a with
  | phi target args =>
    obtain ⟨desc, merged, -⟩ := mergeArgs_spec tree t args
    rw [describeBy]
    dsimp only
    split
    · exact ⟨t, rfl⟩
    · rw [merged]
      exact ⟨_, rfl⟩
  | assign target value | identity target value =>
    rw [describeBy]
    dsimp only
    split <;> exact ⟨_, rfl⟩
  | _ => exact ⟨t, rfl⟩

/-! ## One round -/

/-- Statements one after the other leave the kinds as they are, and the descriptors of all locals
but those that they define. -/
theorem describe_spec (ran : actions.foldlM (describeBy m h) t = .ok next) : t.SameKinds next ∧
      ∀ x, (∀ a ∈ actions, a.defines? ≠ some x) → next.descOf x = t.descOf x := by
  induction actions generalizing t with
  | nil =>
    cases ran
    exact ⟨.refl _, fun _ _ => rfl⟩
  | cons a actions ih =>
    rw [foldlM_cons] at ran
    obtain ⟨second, first, ran⟩ := Outcome.bind_ok.mp ran
    obtain ⟨same, changes⟩ := describeBy_cases first
    obtain ⟨later, others⟩ := ih ran
    refine ⟨same.trans later, fun x free => ?_⟩
    obtain ⟨here, free⟩ := forall_mem_cons.mp free
    rw [others x free]
    cases changes with
    | nothing _ equal => rw [descOf, equal, descOf]
    | @desc y desc defines _ _ learned =>
      have differ : x ≠ y := fun equal => here (equal ▸ defines)
      rw [descOf, learned, getD_set, if_neg fun both => differ both.1, descOf]

theorem tells_of_unchanged (once : (actions.filterMap Action.defines?).Nodup)
    (inside : ∀ a ∈ actions, ∀ x, a.defines? = some x → x < t.descs.size)
    (ran : actions.foldlM (describeBy m h) t = .ok next) (unchanged : next.descs = t.descs) :
    ∀ a ∈ actions, ∀ x, a.defines? = some x → t.kindOf x = .ref →
      ∃ now, t.SameKinds now ∧ now.descs = t.descs ∧ now.Tells m h a (t.descOf x) := by
  induction actions generalizing t with
  | nil => nofun
  | cons a actions ih =>
    obtain ⟨here, inside⟩ := forall_mem_cons.mp inside
    rw [foldlM_cons] at ran
    obtain ⟨second, first, ran⟩ := Outcome.bind_ok.mp ran
    obtain ⟨same, changes⟩ := describeBy_cases first
    have later : (actions.filterMap Action.defines?).Nodup :=
      once.sublist ((sublist_cons_self a actions).filterMap _)
    -- What the statement tells stays to the end, and is there already.
    have equal : second.descs = t.descs := by
      cases changes with
      | nothing _ equal => exact equal
      | @desc x desc defines _ _ learned =>
        have fresh : ∀ b ∈ actions, b.defines? ≠ some x := by grind
        refine descs_eq same.size (funext fun y => ?_)
        by_cases other : y = x
        · subst other
          rw [← (describe_spec ran).2 y fresh, descOf, unchanged, descOf]
        · rw [descOf_learned (here x defines) learned, Function.update_of_ne other]
    refine forall_mem_cons.mpr ⟨fun x defines isRef => ?_, fun b member x defines isRef => ?_⟩
    · cases changes with
      | nothing other => exact absurd isRef (other x defines)
      | @desc y desc also _ tells learned =>
        cases defines.symm.trans also
        have told := congrFun (descOf_learned (here x defines) learned) x
        have kept : second.descOf x = t.descOf x := by rw [descOf, equal, descOf]
        rw [Function.update_self, kept] at told
        exact ⟨t, .refl t, rfl, told ▸ tells⟩
    · obtain ⟨now, follows, kept, tells⟩ := ih later
        (fun b member x defines => same.size ▸ inside b member x defines) ran
        (unchanged.trans equal.symm) b member x defines ((same.kindOf x).trans isRef)
      have told : second.descOf x = t.descOf x := by rw [descOf, equal, descOf]
      exact ⟨now, same.trans follows, kept.trans equal, told ▸ tells⟩

/-- No reference that statements define comes out of an array, and there is room for all of them. -/
structure Regular (t : Typing) (actions : List Action) : Prop where
  inside : ∀ a ∈ actions, ∀ x, a.defines? = some x → x < t.descs.size
  plain : ∀ a ∈ actions, ∀ x, a.defines? = some x → t.kindOf x = .ref → a.readsElement = false

theorem Regular.follow (regular : t.Regular actions) (same : t.SameKinds next) :
    next.Regular actions where
  inside a member x defines := same.size ▸ regular.inside a member x defines
  plain a member x defines isRef :=
    regular.plain a member x defines ((same.kindOf x).symm.trans isRef)

theorem Regular.exists_round (tree : (known h).IsTree) (regular : t.Regular actions) :
    ∃ next, actions.foldlM (describeBy m h) t = .ok next ∧
      Rule.Round (known h).Below (t.rulesOf m actions) t.descOf next.descOf := by
  induction actions generalizing t with
  | nil => exact ⟨t, rfl, .nil _⟩
  | cons a actions ih =>
    obtain ⟨second, first⟩ := exists_describeBy tree m t a
    obtain ⟨same, changes⟩ := describeBy_cases first
    obtain ⟨here, inside⟩ := forall_mem_cons.mp regular.inside
    obtain ⟨plainHere, plain⟩ := forall_mem_cons.mp regular.plain
    obtain ⟨next, ran, round⟩ := ih (Regular.follow ⟨inside, plain⟩ same)
    refine ⟨next, by rwa [foldlM_cons, first], ?_⟩
    rw [same.rulesOf] at round
    rw [rulesOf, filterMap_cons]
    cases changes with
    | nothing other equal =>
      have noRule : ((a.rule? m).filter fun rule => t.kindOf rule.1 == .ref) = none := by
        rw [Option.filter_eq_none_iff]
        intro rule found
        exact fun isRef => other _ (rule?_fst found) (eq_of_beq isRef)
      have told : second.descOf = t.descOf := funext fun x => by rw [descOf, equal, descOf]
      rw [noRule]
      exact told ▸ round
    | @desc x desc defines isRef tells learned =>
      obtain ⟨origin, found, step⟩ := tells.step tree (plainHere x defines isRef) defines
      rw [found, Option.filter_some, if_pos (beq_iff_eq.mpr isRef)]
      exact .cons (descOf_learned (here x defines) learned ▸ step) round

end Typing

end Ir

end DexLift
