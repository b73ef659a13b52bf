import DexLift.Proofs.Ir.Machine
import DexLift.Proofs.Ir.Tidy

/-!
# Places in a body

`From` says what the body is from a position on; runs and paths move along it.
In a tidy method a label is found where it stands, by running through the body as
well as by the table of labels, and the block of a position follows from the
statements in front of it.
-/

namespace DexLift.Ir

open List

namespace Method

def From (m : Method) (position : Nat) (rest : List Action) : Prop := m.actions.drop position = rest

section From

variable {m : Method} {position : Nat} {a : Action} {rest more : List Action}

theorem From.get (here : m.From position (a :: rest)) : m.actions[position]? = some a := by
  have first := congrArg head? here
  rwa [head?_drop] at first

theorem From.next (here : m.From position (a :: rest)) : m.From (position + 1) rest := by
  have later := congrArg List.tail here
  rwa [tail_drop] at later

theorem From.skip {first : List Action} (here : m.From position (first ++ rest)) :
    m.From (position + first.length) rest := by
  induction first generalizing position with
  | nil => exact here
  | cons a first ih =>
    have later := ih here.next
    rwa [Nat.add_assoc, Nat.add_comm 1] at later

theorem From.within {base : Nat} {part : List Action}
    (here : m.From base (part ++ rest)) (low : base ≤ position)
    (high : position < base + part.length) : ∃ a ∈ part, ∃ more, m.From position (a :: more) := by
  obtain ⟨offset, rfl⟩ := Nat.exists_eq_add_of_le low
  have inside : offset < part.length := by omega
  have split : part = part.take offset ++ part[offset] :: part.drop (offset + 1) := by
    rw [← drop_eq_getElem_cons inside, take_append_drop]
  rw [split, append_assoc] at here
  have there := here.skip
  rw [length_take, Nat.min_eq_left (Nat.le_of_lt inside)] at there
  exact ⟨part[offset], getElem_mem inside, _, there⟩

theorem from_of_append {before : List Action} (split : m.actions = before ++ rest) :
    m.From before.length rest := by
  rw [From, split, drop_left]

theorem from_of_get (found : m.actions[position]? = some a) :
    m.From position (a :: m.actions.drop (position + 1)) := by
  obtain ⟨inside, here⟩ := List.getElem?_eq_some_iff.mp found
  rw [From, drop_eq_getElem_cons inside, here]

@[simp] theorem length_actions (m : Method) : m.actions.length = m.order.size := by
  simp [actions]

end From

/-! ## Blocks of positions -/

def standing (m : Method) (position : Nat) : Standing :=
  Standing.passAll m.opens (m.actions.take position) ⟨.nowhere, false⟩

section Standing

variable {m : Method} {position : Nat} {a : Action} {rest : List Action}

theorem standing_next (here : m.From position (a :: rest)) :
    m.standing (position + 1) = (m.standing position).pass m.opens a := by
  rw [standing, standing, take_add_one, here.get, Standing.passAll, foldl_append]
  rfl

theorem blockAt_eq (here : m.From position (a :: rest)) :
    m.blockAt position = ((m.standing position).pass m.opens a).block := by
  rw [← standing_next here]
  rfl

end Standing

/-! ## Labels -/

section Labels

variable {m : Method} {position : Nat} {l : Label}

theorem Tidy.position_unique (tidy : m.Tidy) {other : Nat}
    (first : m.actions[position]? = some (.label l))
    (second : m.actions[other]? = some (.label l)) : position = other := by
  simp only [actions, getElem?_map, Option.map_eq_some_iff] at first second
  obtain ⟨id, inFirst, isFirst⟩ := first
  obtain ⟨id', inSecond, isSecond⟩ := second
  have same := tidy.label_unique (mem_of_getElem? inFirst) (mem_of_getElem? inSecond)
    isFirst isSecond
  subst same
  exact (getElem?_inj (lt_of_get inFirst) tidy.nodup).mp (inFirst.trans inSecond.symm)

theorem Tidy.find?_eq_some (tidy : m.Tidy) :
    m.find? l = some position ↔ m.actions[position]? = some (.label l) := by
  constructor
  · intro found
    obtain ⟨inside, here, -⟩ := findIdx?_eq_some_iff_getElem.mp found
    rw [getElem?_eq_getElem inside]
    have label : m.actions[position].label? = some l := by simpa using here
    rw [Action.label?_eq_some.mp label]
  · intro here
    obtain ⟨inside, label⟩ := List.getElem?_eq_some_iff.mp here
    refine findIdx?_eq_some_iff_getElem.mpr ⟨inside, by simp [label, Action.label?], ?_⟩
    intro other early
    have bound : other < m.actions.length := Nat.lt_trans early inside
    intro same
    have same : m.actions[other].label? = some l := by simpa using same
    have there : m.actions[other]? = some (.label l) := by
      rw [getElem?_eq_getElem bound, Action.label?_eq_some.mp same]
    exact Nat.ne_of_lt early (tidy.position_unique there here)

theorem Tidy.positionOf?_eq_find? (tidy : m.Tidy) (l : Label) : m.positionOf? l = m.find? l := by
  cases placed : m.placedAt? l with
  | none =>
    rw [positionOf?, placed, Option.map_none]
    refine (Option.eq_none_iff_forall_ne_some.mpr ?_).symm
    intro position found
    have here := tidy.find?_eq_some.mp found
    simp only [actions, getElem?_map, Option.map_eq_some_iff] at here
    obtain ⟨id, listed, label⟩ := here
    rw [tidy.placed_of_label id (mem_of_getElem? listed) l label] at placed
    cases placed
  | some id =>
    obtain ⟨member, label⟩ := tidy.label_of_placed l id placed
    obtain ⟨before, after, split⟩ := append_of_mem member
    have position : m.order.idxOf? id = some before.length := by
      have array : m.order = (before ++ id :: after).toArray := by rw [← split]
      rw [array]
      exact idxOf_middle (split ▸ tidy.nodup)
    rw [positionOf?, placed, Option.map_some, position]
    refine (tidy.find?_eq_some.mpr ?_).symm
    rw [actions, split]
    simp [label]

end Labels

end Method

/-! ## Labels with joins -/

theorem phiStep_plain (actions : List Action) (state : Label × List Label)
    (plain : ∀ a ∈ actions, a.label? = none ∧ a.isPhi = false) :
    actions.foldl phiStep state = state := by
  induction actions with
  | nil => rfl
  | cons a rest ih =>
    obtain ⟨notLabel, notPhi⟩ := plain a (by simp)
    have same : phiStep state a = state := by
      cases a with
      | label => cases notLabel
      | phi => cases notPhi
      | _ => rfl
    rw [foldl_cons, same]
    exact ih fun b member => plain b (.tail _ member)

end DexLift.Ir

/-!
# Counting reads and finding definitions

One pass over the body counts how often each local is read, and another notes
the statement that defines it. The counts are those of the lists of reads; a
noted statement is one of the body that defines the local, and a local that some
statement defines has one.
-/

namespace DexLift.Ir

open List

def countInto (counts : Array Nat) (ids : List LocalId) : Array Nat :=
  ids.foldl (fun counts id => counts.modify id (· + 1)) counts

theorem getD_countInto (counts : Array Nat) (ids : List LocalId) (l : LocalId) :
    (countInto counts ids).getD l 0 =
      counts.getD l 0 + if l < counts.size then ids.count l else 0 := by
  induction ids generalizing counts with
  | nil => simp [countInto]
  | cons id ids ih =>
    have step := ih (counts.modify id (· + 1))
    rw [Array.size_modify] at step
    refine step.trans ?_
    simp only [getD_modify, count_cons]
    grind

namespace Method

variable (m : Method)

def joined (a : Action) : List LocalId := a.phiArgs.map PhiArg.value

theorem foldl_countInto (as : List Action) (uses phiUses : Array Nat) :
    as.foldl (fun (uses, phiUses) action =>
      (countInto uses action.uses, countInto phiUses (action.phiArgs.map PhiArg.value)))
      (uses, phiUses) =
    (countInto uses (as.flatMap Action.uses), countInto phiUses (as.flatMap joined)) := by
  induction as generalizing uses phiUses with
  | nil => rfl
  | cons a as ih =>
    rw [foldl_cons, ih]
    simp only [countInto, flatMap_cons, foldl_append, joined]

theorem useCounts_eq : m.useCounts =
    (countInto (Array.replicate m.locals.size 0) (m.actions.flatMap Action.uses),
      countInto (Array.replicate m.locals.size 0) (m.actions.flatMap joined)) :=
  foldl_countInto m.actions _ _

theorem getD_useCounts (l : LocalId) : m.useCounts.1.getD l 0 =
    if l < m.locals.size then (m.actions.flatMap Action.uses).count l else 0 := by
  rw [useCounts_eq, getD_countInto, Array.size_replicate]
  by_cases inside : l < m.locals.size <;> simp [inside]

theorem getD_useCounts_joined (l : LocalId) : m.useCounts.2.getD l 0 =
    if l < m.locals.size then (m.actions.flatMap joined).count l else 0 := by
  rw [useCounts_eq, getD_countInto, Array.size_replicate]
  by_cases inside : l < m.locals.size <;> simp [inside]

def noteDef (defs : Array (Option StmtId)) (id : StmtId) : Array (Option StmtId) :=
  match (m.action id).defines? with
  | some target => defs.setIfInBounds target (some id)
  | none => defs

theorem defs_eq : m.defs = m.order.toList.foldl m.noteDef (Array.replicate m.locals.size none) := by
  unfold defs body
  rw [foldl_map]
  rfl

@[simp] theorem size_noteDef (defs : Array (Option StmtId)) (id : StmtId) :
    (m.noteDef defs id).size = defs.size := by
  unfold noteDef
  split
  · exact Array.size_setIfInBounds
  · rfl

theorem getD_noteDef (defs : Array (Option StmtId)) (id : StmtId) (l : LocalId) :
    (m.noteDef defs id).getD l none =
      if (m.action id).defines? = some l ∧ l < defs.size then some id else defs.getD l none := by
  unfold noteDef
  cases own : (m.action id).defines? with
  | none => simp
  | some target =>
    dsimp only
    rw [getD_set]
    grind

theorem mem_of_getD_defs {l : LocalId} {id : StmtId} (noted : m.defs.getD l none = some id) :
    id ∈ m.order.toList ∧ (m.action id).defines? = some l := by
  have pass : ∀ ids : List StmtId, ids ⊆ m.order.toList → ∀ defs : Array (Option StmtId),
      (∀ id, defs.getD l none = some id → id ∈ m.order.toList ∧ (m.action id).defines? = some l) →
      ∀ id, (ids.foldl m.noteDef defs).getD l none = some id →
        id ∈ m.order.toList ∧ (m.action id).defines? = some l := by
    intro ids
    induction ids with
    | nil => exact fun _ _ known => known
    | cons first ids ih =>
      intro sub defs known
      refine ih (fun _ member => sub (.tail _ member)) _ ?_
      intro id noted
      rw [getD_noteDef] at noted
      split at noted
      next own =>
        cases noted
        exact ⟨sub mem_cons_self, own.1⟩
      · exact known id noted
  rw [defs_eq] at noted
  refine pass _ (fun _ member => member) _ (fun id contrary => ?_) id noted
  rw [getD_replicate] at contrary
  cases contrary

theorem exists_getD_defs {l : LocalId} (inside : l < m.locals.size) {id : StmtId}
    (linked : id ∈ m.order.toList) (defines : (m.action id).defines? = some l) :
    ∃ noted, m.defs.getD l none = some noted := by
  have pass : ∀ (ids : List StmtId) (defs : Array (Option StmtId)), defs.size = m.locals.size →
      id ∈ ids ∨ (defs.getD l none).isSome →
      ((ids.foldl m.noteDef defs).getD l none).isSome := by
    intro ids
    induction ids with
    | nil =>
      rintro defs _ (contrary | known)
      · cases contrary
      · exact known
    | cons first ids ih =>
      intro defs size known
      refine ih _ ((m.size_noteDef defs first).trans size) ?_
      by_cases own : (m.action first).defines? = some l ∧ l < defs.size
      · right
        rw [getD_noteDef, if_pos own]
        rfl
      · rcases known with listed | before
        · rcases mem_cons.mp listed with rfl | later
          · exact absurd ⟨defines, size ▸ inside⟩ own
          · exact .inl later
        · right
          rwa [getD_noteDef, if_neg own]
  rw [defs_eq]
  exact Option.isSome_iff_exists.mp (pass _ _ Array.size_replicate (.inl linked))

end Method

end DexLift.Ir
