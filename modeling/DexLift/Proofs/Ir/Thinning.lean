import DexLift.Proofs.Ir.Joining

/-!
# Lists with elements taken out

Taking elements out of a list moves the others towards its beginning. The rank of
a position is the number of elements in front of it that stay; an element that
stays is found there, and ranks keep the order of positions.

A method thins another when its body is that of the other with elements taken
out, as passes leave it that drop statements. As long as the labels stay that
matter, they are found at their ranks, traps cover the same statements, and the
last label in front of a statement, its header and what it lands on are the same.
-/

namespace DexLift.Ir

open List

variable {α : Type} {keep : α → Bool} {xs : List α} {x : α} {position other : Nat}

/-- How many of the elements in front of a position stay. -/
def rank (keep : α → Bool) (xs : List α) (position : Nat) : Nat := (xs.take position).countP keep

@[simp] theorem rank_zero : rank keep xs 0 = 0 := rfl

section

variable (found : xs[position]? = some x)

include found

theorem rank_succ :
    rank keep xs (position + 1) = rank keep xs position + if keep x then 1 else 0 := by
  rw [rank, take_add_one, found, countP_append]
  simp [rank, countP_cons]

theorem rank_succ_of_kept (kept : keep x = true) :
    rank keep xs (position + 1) = rank keep xs position + 1 := by
  rw [rank_succ found, if_pos kept]

theorem rank_succ_of_gone (gone : keep x = false) :
    rank keep xs (position + 1) = rank keep xs position := by
  simp [rank_succ found, gone]

end

theorem drop_rank (keep : α → Bool) (xs : List α) (position : Nat) :
    (xs.filter keep).drop (rank keep xs position) = (xs.drop position).filter keep := by
  induction xs generalizing position with
  | nil => simp
  | cons x xs ih =>
    cases position with
    | zero => rfl
    | succ position =>
      have later := ih position
      rw [rank] at later
      rw [rank, take_succ_cons, countP_cons, drop_succ_cons, filter_cons]
      split
      next kept => rw [drop_succ_cons, later]
      next gone => rw [Nat.add_zero, later]

theorem getElem?_rank (found : xs[position]? = some x) (kept : keep x = true) :
    (xs.filter keep)[rank keep xs position]? = some x := by
  have dropped := drop_rank keep xs position
  obtain ⟨inside, here⟩ := List.getElem?_eq_some_iff.mp found
  rw [drop_eq_getElem_cons inside, here, filter_cons_of_pos kept] at dropped
  have first := congrArg List.head? dropped
  rwa [head?_drop] at first

theorem rank_mono (le : position ≤ other) : rank keep xs position ≤ rank keep xs other := by
  obtain ⟨more, rfl⟩ := Nat.exists_eq_add_of_le le
  rw [rank, rank, take_add, countP_append]
  exact Nat.le_add_right ..

section

variable (found : xs[position]? = some x) (kept : keep x = true)

include found kept

theorem rank_lt (lt : position < other) : rank keep xs position < rank keep xs other := by
  have step := rank_succ_of_kept found kept
  have mono : rank keep xs (position + 1) ≤ rank keep xs other := rank_mono lt
  omega

theorem rank_lt_iff : rank keep xs position < rank keep xs other ↔ position < other := by
  refine ⟨fun less => ?_, rank_lt found kept⟩
  by_contra le
  have mono : rank keep xs other ≤ rank keep xs position := rank_mono (Nat.le_of_not_lt le)
  omega

theorem rank_inj {y : α} (foundOther : xs[other]? = some y) (keptOther : keep y = true)
    (same : rank keep xs position = rank keep xs other) : position = other := by
  rcases Nat.lt_trichotomy position other with less | equal | greater
  · have step := rank_lt found kept less
    omega
  · exact equal
  · have step := rank_lt foundOther keptOther greater
    omega

theorem gone_between {y : α} (next : rank keep xs other = rank keep xs position + 1) {i : Nat}
    (low : position < i) (high : i < other) (between : xs[i]? = some y) : keep y = false := by
  by_contra stays
  have first := rank_succ_of_kept found kept
  have second : rank keep xs (position + 1) ≤ rank keep xs i := rank_mono low
  have third := rank_lt between (by simpa using stays) high
  omega

end

theorem gone_of_rank_zero {y : α} (first : rank keep xs position = 0) {i : Nat}
    (less : i < position) (there : xs[i]? = some y) : keep y = false := by
  by_contra stays
  have step := rank_lt there (by simpa using stays) less
  omega

theorem exists_next (keep : α → Bool) {xs : List α} (inside : position ≤ xs.length) :
    ∃ next, position ≤ next ∧ next ≤ xs.length ∧
      (∀ i y, position ≤ i → i < next → xs[i]? = some y → keep y = false) ∧
      ∀ y, xs[next]? = some y → keep y = true := by
  induction more : xs.length - position generalizing position with
  | zero =>
    refine ⟨position, Nat.le_refl _, inside, fun i y low high => absurd low (by omega), ?_⟩
    intro y found
    have bound := (List.getElem?_eq_some_iff.mp found).1
    omega
  | succ size ih =>
    have found := getElem?_eq_getElem (l := xs) (i := position) (by omega)
    cases stays : keep xs[position] with
    | true =>
      refine ⟨position, Nat.le_refl _, inside, fun i y low high => absurd low (by omega), ?_⟩
      intro y there
      rwa [← Option.some.inj (found.symm.trans there)]
    | false =>
      obtain ⟨next, le, bound, gone, kept⟩ :=
        @ih (position + 1) (by omega) (by omega)
      refine ⟨next, by omega, bound, fun i y low high there => ?_, kept⟩
      rcases Nat.eq_or_lt_of_le low with rfl | later
      · rwa [← Option.some.inj (found.symm.trans there)]
      · exact gone i y later high there

theorem exists_rank {index : Nat} (found : (xs.filter keep)[index]? = some x) :
    ∃ position, xs[position]? = some x ∧ keep x = true ∧ rank keep xs position = index := by
  induction xs generalizing index with
  | nil => simp at found
  | cons y xs ih =>
    by_cases kept : keep y = true
    · rw [filter_cons_of_pos kept] at found
      cases index with
      | zero =>
        obtain rfl : y = x := by simpa using found
        exact ⟨0, rfl, kept, rfl⟩
      | succ index =>
        obtain ⟨position, here, stays, same⟩ := ih (by simpa using found)
        refine ⟨position + 1, by simpa using here, stays, ?_⟩
        rw [← same]
        simp [rank, kept]
    · rw [filter_cons_of_neg kept] at found
      obtain ⟨position, here, stays, same⟩ := ih found
      refine ⟨position + 1, by simpa using here, stays, ?_⟩
      rw [← same]
      simp [rank, kept]

theorem rank_eq_of_gone (le : position ≤ other)
    (gone : ∀ i y, position ≤ i → i < other → xs[i]? = some y → keep y = false) :
    rank keep xs other = rank keep xs position := by
  obtain ⟨more, rfl⟩ := Nat.exists_eq_add_of_le le
  rw [rank, rank, take_add, countP_append, Nat.add_eq_left, countP_eq_zero]
  intro y member
  obtain ⟨i, found⟩ := mem_iff_getElem?.mp member
  have inside := (List.getElem?_eq_some_iff.mp found).1
  rw [length_take] at inside
  rw [getElem?_take_of_lt (by omega), getElem?_drop] at found
  simp [gone (position + i) y (by omega) (by omega) found]

theorem rank_le_length : rank keep xs position ≤ (xs.filter keep).length := by
  rw [← countP_eq_length_filter, rank]
  exact (take_sublist ..).countP_le

/-! ## Bodies with statements taken out -/

/-- One method has the body of another with some statements taken out. Those that stay are the
same labels and end the same blocks. -/
structure Method.Thins (m n : Method) (keep : StmtId → Bool) : Prop where
  source : m.Tidy
  target : n.Tidy
  order : n.order.toList = m.order.toList.filter keep
  label : ∀ id ∈ n.order.toList, (n.action id).label? = (m.action id).label?
  ends : ∀ id ∈ n.order.toList, (n.action id).endsBlock = (m.action id).endsBlock

namespace Method.Thins

variable {m n : Method} {keep : StmtId → Bool} {id : StmtId} {l : Label} {index : Nat}
  {position header : Nat} (thins : m.Thins n keep)

include thins

theorem at_rank (here : m.order.toList[position]? = some id) (kept : keep id = true) :
    n.order.toList[rank keep m.order.toList position]? = some id := by
  rw [thins.order]
  exact getElem?_rank here kept

theorem exists_position (there : n.order.toList[index]? = some id) :
    ∃ position, m.order.toList[position]? = some id ∧ keep id = true ∧
      rank keep m.order.toList position = index :=
  exists_rank (thins.order ▸ there)

theorem exists_label (label : n.actions[index]? = some (.label l)) :
    ∃ position id, m.order.toList[position]? = some id ∧ keep id = true ∧
      rank keep m.order.toList position = index ∧ m.actions[position]? = some (.label l) := by
  obtain ⟨id, there, action⟩ := exists_order label
  obtain ⟨position, here, kept, same⟩ := thins.exists_position there
  have found := thins.label id (mem_of_getElem? there)
  rw [action] at found
  refine ⟨position, id, here, kept, same, ?_⟩
  rw [getElem?_actions here, Action.label?_eq_some.mp found.symm]

section

variable (here : m.order.toList[position]? = some id) (kept : keep id = true)

include here kept

theorem label_rank (label : m.actions[position]? = some (.label l)) :
    n.actions[rank keep m.order.toList position]? = some (.label l) := by
  have there := thins.at_rank here kept
  have found := thins.label id (mem_of_getElem? there)
  rw [Option.some.inj ((getElem?_actions here).symm.trans label)] at found
  rw [getElem?_actions there, Action.label?_eq_some.mp found]

theorem find?_rank
    (found : m.find? l = some position) : n.find? l = some (rank keep m.order.toList position) :=
  thins.target.find?_eq_some.mpr (thins.label_rank here kept (thins.source.find?_eq_some.mp found))

end

theorem exists_find? (found : n.find? l = some index) :
    ∃ position id, m.order.toList[position]? = some id ∧ keep id = true ∧
      rank keep m.order.toList position = index ∧ m.find? l = some position := by
  obtain ⟨position, id, here, kept, same, label⟩ :=
    thins.exists_label (thins.target.find?_eq_some.mp found)
  exact ⟨position, id, here, kept, same, thins.source.find?_eq_some.mpr label⟩

theorem covered_rank (here : m.order.toList[position]? = some id) (kept : keep id = true) {t : Trap}
    (bounds : ∀ id ∈ m.order.toList, m.action id = .label t.start ∨ m.action id = .label t.stop →
      keep id = true) :
    n.covered t (rank keep m.order.toList position) = m.covered t position := by
  have absent : ∀ {l : Label}, m.find? l = none → n.find? l = none := by
    intro l none
    refine Option.eq_none_iff_forall_ne_some.mpr fun index found => ?_
    obtain ⟨p, -, -, -, -, there⟩ := thins.exists_find? found
    rw [none] at there
    cases there
  unfold covered
  cases start : m.find? t.start with
  | none => rw [absent start]
  | some first =>
    cases stop : m.find? t.stop with
    | none => simp [absent stop]
    | some last =>
      obtain ⟨id', here', label'⟩ := exists_order (thins.source.find?_eq_some.mp start)
      obtain ⟨id'', here'', label''⟩ := exists_order (thins.source.find?_eq_some.mp stop)
      have kept' := bounds id' (mem_of_getElem? here') (.inl label')
      rw [thins.find?_rank here' kept' start, thins.find?_rank here''
        (bounds id'' (mem_of_getElem? here'') (.inr label'')) stop]
      simp only [rank_lt_iff here' kept', rank_lt_iff here kept]

theorem lastLabel_rank (inside : position ≤ m.actions.length)
    (kept : ∀ header id, header < position → m.order.toList[header]? = some id →
      m.actions[header]? = some (.label (m.lastLabel position)) →
      (∀ i other, header < i → i < position → m.actions[i]? ≠ some (.label other)) →
      keep id = true) :
    n.lastLabel (rank keep m.order.toList position) = m.lastLabel position := by
  have inside' : rank keep m.order.toList position ≤ n.actions.length := by
    rw [length_actions, ← Array.length_toList, thins.order]
    exact rank_le_length
  rcases exists_of_lastLabel inside with ⟨same, none⟩ | ⟨header, less, label, none⟩
  · rw [same]
    rcases exists_of_lastLabel inside' with ⟨same', -⟩ | ⟨header', less', label', -⟩
    · exact same'
    · obtain ⟨i, id, here, stays, rfl, found⟩ := thins.exists_label label'
      exact absurd found (none i _ ((rank_lt_iff here stays).mp less'))
  · obtain ⟨id, here, -⟩ := exists_order label
    have stays := kept header id less here label none
    refine lastLabel_of_straight (thins.label_rank here stays label)
      (rank_lt here stays less) inside' ?_
    intro i other low high label'
    obtain ⟨i', id', here', stays', rfl, found⟩ := thins.exists_label label'
    exact none i' other ((rank_lt_iff here stays).mp low) ((rank_lt_iff here' stays').mp high) found

theorem exists_header {a b : Action} (found : m.actions[position]? = some a) (plain : a.label? = none)
    (there : n.actions[rank keep m.order.toList position]? = some b) (plain' : b.label? = none)
    (kept : ∀ header, (∀ i other, header < i → i < position → m.actions[i]? ≠ some (.label other)) →
      m.actions[header]? = some (.label (m.lastLabel position)) →
      ∀ i id, header ≤ i → i < position → m.order.toList[i]? = some id → keep id = true)
    {header' : Nat} (block : n.headerOf (rank keep m.order.toList position) = some header') :
    ∃ header, m.headerOf position = some header ∧ rank keep m.order.toList header = header' := by
  have inside := lt_of_get found
  obtain ⟨less', ⟨l, label'⟩, straight'⟩ := (thins.target.headerOf_eq_some there plain').mp block
  obtain ⟨first, id, here, stays, rfl, label⟩ := thins.exists_label label'
  have less := (rank_lt_iff here stays).mp less'
  rcases exists_of_lastLabel (le_of_lt inside) with ⟨-, none⟩ | ⟨header, before, last, none⟩
  · exact absurd label (none first l less)
  · have left := kept header none last
    -- The last label in front of the statement is left, so it is this one.
    obtain ⟨last_, here_, -⟩ := exists_order last
    have stays_ := left header last_ le_rfl before here_
    have equal : header = first := by
      rcases Nat.lt_trichotomy header first with low | equal | high
      · exact absurd label (none first l low less)
      · exact equal
      · cases (straight' _ _ (rank_lt here stays high) (rank_lt here_ stays_ before)
          (thins.label_rank here_ stays_ last)).1
    subst equal
    refine ⟨header, (thins.source.headerOf_eq_some found plain).mpr ⟨less, ⟨l, label⟩, ?_⟩, rfl⟩
    intro i c low high here'
    obtain ⟨id', at_, rfl⟩ := exists_order here'
    have stays' := left i id' (le_of_lt low) high at_
    have there' := thins.at_rank at_ stays'
    have goesOn := straight' _ _ (rank_lt here stays low) (rank_lt at_ stays' high)
      (getElem?_actions there')
    rwa [thins.label id' (mem_of_getElem? there'), thins.ends id' (mem_of_getElem? there')] at goesOn

theorem isLabel_eq (listed : id ∈ m.order.toList) (kept : keep id = true) :
    (n.action id).isLabel = (m.action id).isLabel := by
  have stays : id ∈ n.order.toList := by
    rw [thins.order]
    exact mem_filter.mpr ⟨listed, kept⟩
  rw [Action.isLabel, Action.isLabel, thins.label id stays]

theorem landing_rank (lands : ∀ id, m.landing position = some id → keep id = true) :
    n.landing (rank keep m.order.toList position) = m.landing position := by
  rw [landing, thins.order, drop_rank]
  cases found : m.landing position with
  | none =>
    rw [find?_eq_none]
    intro id member
    obtain ⟨member, kept⟩ := mem_filter.mp member
    rw [thins.isLabel_eq (mem_of_mem_drop member) kept]
    exact find?_eq_none.mp found id member
  | some id =>
    have kept := lands id found
    obtain ⟨plain, before, behind, split, early⟩ := find?_eq_some_iff_append.mp found
    have listed : ∀ other ∈ before ++ id :: behind, other ∈ m.order.toList :=
      fun other member => mem_of_mem_drop (split ▸ member)
    rw [split, filter_append, filter_cons_of_pos kept, find?_eq_some_iff_append]
    refine ⟨by rwa [thins.isLabel_eq (listed id (by simp)) kept], _, _, rfl, fun other member => ?_⟩
    obtain ⟨member, kept'⟩ := mem_filter.mp member
    rw [thins.isLabel_eq (listed other (mem_append_left _ member)) kept']
    exact early other member

end Method.Thins

end DexLift.Ir
