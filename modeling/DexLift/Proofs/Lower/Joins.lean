import DexLift.Lower.Method
import DexLift.Proofs.Tables
import Mathlib.Data.List.Nodup

/-!
# Which joins stay

Joins that read a dropped local are dropped in turn, until those that are left
read none. Of these, joins of one value are replaced by it. A replacement always
leads to a smaller local, because every join reads, on some way in, a local that
was made before it; so following replacements comes to an end, and all operands
of a replaced join come to the same local as the join itself.
-/

namespace DexLift

open List

namespace Ir

namespace Substitution

/-! ## Following a table that leads downwards -/

variable {place : Nat}

/-- Every local is replaced by a smaller one. -/
def Decreasing (subst : Substitution) : Prop :=
  ∀ id next : Nat, subst.getD id none = some next → next < id

variable {subst : Substitution}

theorem find_stable (decreasing : subst.Decreasing) (fuel other : Nat) (id : Nat)
    (enough : id ≤ fuel) (enough' : id ≤ other) : subst.find fuel id = subst.find other id := by
  induction fuel generalizing other id with
  | zero =>
    cases Nat.le_zero.mp enough
    cases other with
    | zero => rfl
    | succ other =>
      unfold find
      cases found : subst.getD 0 none with
      | none => rfl
      | some next => exact absurd (decreasing 0 next found) (Nat.not_lt_zero _)
  | succ fuel ih =>
    unfold find
    cases found : subst.getD id none with
    | none =>
      cases other with
      | zero => rfl
      | succ other => simp [found]
    | some next =>
      have smaller := decreasing id next found
      cases other with
      | zero => exact absurd (Nat.lt_of_lt_of_le smaller enough') (Nat.not_lt_zero _)
      | succ other =>
        simp only [found]
        exact ih other next (Nat.le_of_lt_succ (Nat.lt_of_lt_of_le smaller enough))
          (Nat.le_of_lt_succ (Nat.lt_of_lt_of_le smaller enough'))

theorem resolve_of_none {id : Nat} (none : subst.getD id none = none) : subst.resolve id = id := by
  unfold resolve
  cases subst.size with
  | zero => rfl
  | succ size => simp [find, none]

theorem resolve_of_some (decreasing : subst.Decreasing) {id next : Nat}
    (found : subst.getD id none = some next) : subst.resolve id = subst.resolve next := by
  have inside : id < subst.size := by
    by_contra outside
    simp [Nat.not_lt.mp outside] at found
  have smaller := decreasing id next found
  unfold resolve
  obtain ⟨size, equal⟩ := Nat.exists_eq_succ_of_ne_zero (Nat.ne_of_gt (Nat.lt_of_le_of_lt
    (Nat.zero_le _) inside))
  rw [equal]
  conv_lhs => unfold find
  simp only [found]
  exact find_stable decreasing size (size + 1) next (by omega) (by omega)

theorem resolve_le (decreasing : subst.Decreasing) (id : Nat) :
    subst.resolve id ≤ id ∧ subst.getD (subst.resolve id) none = none := by
  induction id using Nat.strongRecOn with
  | ind id ih =>
    cases found : subst.getD id none with
    | none =>
      rw [resolve_of_none found]
      exact ⟨Nat.le_refl _, found⟩
    | some next =>
      have smaller := decreasing id next found
      obtain ⟨le, last⟩ := ih next smaller
      rw [resolve_of_some decreasing found]
      exact ⟨Nat.le_trans le (Nat.le_of_lt smaller), last⟩

theorem getD_insert (inside : place < subst.size) (value id : Nat) :
    (subst.insert place value).getD id none =
      if id = place then some value else subst.getD id none := by
  simp only [insert, getD_set, inside, and_true]

theorem Decreasing.insert (decreasing : subst.Decreasing) {value : Nat}
    (inside : place < subst.size) (smaller : value < place) :
    (subst.insert place value).Decreasing := by
  intro id next found
  rw [getD_insert inside] at found
  split at found
  next same =>
    cases found
    rwa [same]
  · exact decreasing id next found

theorem resolve_insert (decreasing : subst.Decreasing) {value : Nat} (inside : place < subst.size)
    (smaller : value < place) (last : subst.getD place none = none)
    (lastValue : subst.getD value none = none) (id : Nat) :
    (subst.insert place value).resolve id =
      if subst.resolve id = place then value else subst.resolve id := by
  have after := decreasing.insert inside smaller
  have valueStays : (subst.insert place value).resolve value = value := by
    apply resolve_of_none
    rw [getD_insert inside, if_neg (Nat.ne_of_lt smaller), lastValue]
  induction id using Nat.strongRecOn with
  | ind id ih =>
    by_cases here : id = place
    · have found : (subst.insert place value).getD id none = some value := by
        rw [getD_insert inside, if_pos here]
      rw [resolve_of_some after found, valueStays, here, resolve_of_none last, if_pos rfl]
    · have same : (subst.insert place value).getD id none = subst.getD id none := by
        rw [getD_insert inside, if_neg here]
      cases found : subst.getD id none with
      | none =>
        rw [resolve_of_none (same.trans found), resolve_of_none found, if_neg here]
      | some next =>
        rw [resolve_of_some after (same.trans found), resolve_of_some decreasing found]
        exact ih next (decreasing id next found)

end Substitution

end Ir

namespace Lower

open Ir

/-! ## Dropping joins -/

variable {phis : List PendingPhi} {size : Nat} {p : PendingPhi} {subst : Substitution}
  {value : LocalId}

/-- What dropping leads to: the joins that are kept read nothing dropped, and every other join is
dropped itself. -/
structure Dropped (before : LocalSet) (phis : List PendingPhi) (after : LocalSet)
    (kept : List PendingPhi) : Prop where
  sub : kept.Sublist phis
  old : ∀ l, before.mem l = true → after.mem l = true
  gone : ∀ p ∈ phis, p ∈ kept ∨ after.mem p.target = true
  new : ∀ l, after.mem l = true →
    before.mem l = true ∨ ∃ p ∈ phis, p ∉ kept ∧ p.target = l
  reads : ∀ p ∈ kept, ∀ a ∈ p.args, after.mem a.value = false

theorem dropOpen_spec (fuel : Nat) (before : LocalSet) (phis : List PendingPhi)
    (enough : phis.length < fuel) :
    Dropped before phis (dropOpen fuel before phis).1 (dropOpen fuel before phis).2 := by
  induction fuel generalizing before phis with
  | zero => omega
  | succ fuel ih =>
    unfold dropOpen
    rw [partition_eq_filter_filter]
    dsimp only
    split
    next none =>
      have all : ∀ p ∈ phis, ¬ (p.args.any fun a => before.mem a.value) = true := by
        rwa [List.isEmpty_iff, filter_eq_nil_iff] at none
      have kept : phis.filter (not ∘ fun p => p.args.any fun a => before.mem a.value) = phis := by
        rw [filter_eq_self]
        intro p member
        simpa using all p member
      rw [kept]
      refine ⟨.refl _, fun _ => id, fun p member => .inl member, fun l member => .inl member, ?_⟩
      intro p member a read
      have clean := all p member
      simp only [any_eq_true, not_exists, not_and, Bool.not_eq_true] at clean
      exact clean a read
    next some =>
      have bad : ∃ p ∈ phis, (p.args.any fun a => before.mem a.value) = true := by
        rw [List.isEmpty_iff, filter_eq_nil_iff] at some
        simpa using some
      have fewer : (phis.filter (not ∘ fun p => p.args.any fun a => before.mem a.value)).length <
          phis.length := by
        rw [length_filter_lt_length_iff_exists]
        obtain ⟨p, member, reads⟩ := bad
        exact ⟨p, member, by simp [reads]⟩
      obtain ⟨sub, old, gone, new, reads⟩ := ih
        (before.union (.ofList ((phis.filter fun p => p.args.any fun a => before.mem a.value).map
          PendingPhi.target)))
        (phis.filter (not ∘ fun p => p.args.any fun a => before.mem a.value)) (by omega)
      refine ⟨sub.trans filter_sublist, ?_, ?_, ?_, reads⟩
      · intro l member
        exact old l (by simp [member])
      · intro p member
        cases reading : p.args.any fun a => before.mem a.value with
        | true =>
          right
          apply old
          rw [LocalSet.mem_union, Bool.or_eq_true, LocalSet.mem_ofList]
          exact .inr (mem_map_of_mem (mem_filter.mpr ⟨member, reading⟩))
        | false => exact gone p (mem_filter.mpr ⟨member, by simp [reading]⟩)
      · intro l member
        rcases new l member with early | ⟨p, inside, notKept, rfl⟩
        · rw [LocalSet.mem_union, Bool.or_eq_true, LocalSet.mem_ofList] at early
          rcases early with first | second
          · exact .inl first
          · obtain ⟨p, inside, rfl⟩ := mem_map.mp second
            obtain ⟨inside, reading⟩ := mem_filter.mp inside
            refine .inr ⟨p, inside, ?_, rfl⟩
            intro kept
            have clean := (mem_filter.mp (sub.subset kept)).2
            simp [reading] at clean
        · exact .inr ⟨p, (mem_filter.mp inside).1, notKept, rfl⟩

/-! ## Replacing joins of one value -/

/-- What holds while joins of one value are replaced: `phis` are all joins, `kept` those that were
not replaced so far. -/
structure Folded (phis kept : List PendingPhi) (subst : Substitution) : Prop where
  decreasing : subst.Decreasing
  sub : ∀ p ∈ kept, p ∈ phis
  replaced : ∀ id next : Nat, subst.getD id none = some next →
    ∃ p ∈ phis, p ∉ kept ∧ p.target = id
  operands : ∀ p ∈ phis, p ∉ kept → ∀ a ∈ p.args,
    subst.resolve a.value = subst.resolve p.target

/-- What is known of the joins: each has its own local, which is in the table, and reads a smaller
local on some way in. -/
structure Grounded (phis : List PendingPhi) (size : Nat) : Prop where
  nodup : (phis.map PendingPhi.target).Nodup
  inside : ∀ p ∈ phis, p.target < size
  smaller : ∀ p ∈ phis, ∃ a ∈ p.args, (a.value : Nat) < p.target

theorem Grounded.eq_of_target (grounded : Grounded phis size) {q : PendingPhi} (here : p ∈ phis)
    (there : q ∈ phis) (same : p.target = q.target) : p = q :=
  inj_on_of_nodup_map grounded.nodup here there same

theorem Folded.last {phis kept : List PendingPhi} {size : Nat} (grounded : Grounded phis size)
    {subst : Substitution} (folded : Folded phis kept subst) {p : PendingPhi} (member : p ∈ kept) :
    subst.getD p.target none = none := by
  cases found : subst.getD p.target none with
  | none => rfl
  | some next =>
    obtain ⟨q, inside, notKept, same⟩ := folded.replaced p.target next found
    rw [grounded.eq_of_target inside (folded.sub p member) same] at notKept
    exact absurd member notKept

theorem soleOperand_spec {kept : List PendingPhi} (grounded : Grounded phis size)
    (folded : Folded phis kept subst) (member : p ∈ phis) (sole : soleOperand subst p = some value) :
    (value : Nat) < p.target ∧ subst.getD value none = none ∧
      ∀ a ∈ p.args, subst.resolve a.value = p.target ∨ subst.resolve a.value = value := by
  have each : ∀ a ∈ p.args, subst.resolve a.value = p.target ∨ subst.resolve a.value = value := by
    intro a read
    by_cases itself : subst.resolve a.value = p.target
    · exact .inl itself
    · right
      have inside : subst.resolve a.value ∈
          (p.args.map fun a => subst.resolve a.value).filter (· != p.target) :=
        mem_filter.mpr ⟨mem_map_of_mem read, by simpa using itself⟩
      unfold soleOperand at sole
      dsimp only at sole
      split at sole
      · cases sole
      next first rest split =>
        rw [split] at inside
        split at sole
        next all =>
          cases sole
          rcases mem_cons.mp inside with here | later
          · exact here
          · simpa using all_eq_true.mp all _ later
        · cases sole
  obtain ⟨a, read, smaller⟩ := grounded.smaller p member
  obtain ⟨le, last⟩ := Substitution.resolve_le folded.decreasing a.value
  rcases each a read with itself | here
  · rw [itself] at le
    exact absurd (Nat.lt_of_lt_of_le smaller le) (Nat.lt_irrefl _)
  · rw [here] at le last
    exact ⟨Nat.lt_of_le_of_lt le smaller, last, each⟩

theorem Folded.insert {kept rest : List PendingPhi} (grounded : Grounded phis subst.size)
    (folded : Folded phis kept subst) (member : p ∈ kept)
    (others : ∀ q, q ∈ rest ↔ q ∈ kept ∧ q ≠ p) (sole : soleOperand subst p = some value) :
    Folded phis rest (subst.insert p.target value) := by
  have inside := folded.sub p member
  have bound := grounded.inside p inside
  have last := folded.last grounded member
  obtain ⟨smaller, lastValue, each⟩ := soleOperand_spec grounded folded inside sole
  have resolved := Substitution.resolve_insert folded.decreasing bound smaller last lastValue
  refine ⟨folded.decreasing.insert bound smaller, fun q there => folded.sub q ((others q).mp there).1,
    ?_, ?_⟩
  · intro id next found
    rw [Substitution.getD_insert bound] at found
    split at found
    next same => exact ⟨p, inside, fun there => ((others p).mp there).2 rfl, same.symm⟩
    · obtain ⟨q, there, notKept, same⟩ := folded.replaced id next found
      exact ⟨q, there, fun still => notKept ((others q).mp still).1, same⟩
  · intro q there notKept a read
    rw [resolved, resolved]
    by_cases same : q = p
    · subst same
      rw [Substitution.resolve_of_none last, if_pos rfl]
      rcases each a read with itself | here
      · rw [if_pos itself]
      · rw [here]
        split <;> rfl
    · have before : q ∉ kept := fun still => notKept ((others q).mpr ⟨still, same⟩)
      rw [folded.operands q there before a read]

theorem foldRound (rest acc : List PendingPhi) (subst : Substitution)
    (grounded : Grounded phis subst.size) (nodup : (acc.reverse ++ rest).Nodup)
    (folded : Folded phis (acc.reverse ++ rest) subst) :
    Folded phis (rest.foldl foldTrivial (subst, acc)).2.reverse
        (rest.foldl foldTrivial (subst, acc)).1 ∧
      (rest.foldl foldTrivial (subst, acc)).2.reverse.Sublist (acc.reverse ++ rest) ∧
      (rest.foldl foldTrivial (subst, acc)).1.size = subst.size := by
  induction rest generalizing acc subst with
  | nil =>
    rw [append_nil] at folded ⊢
    exact ⟨folded, .refl _, rfl⟩
  | cons p rest ih =>
    rw [foldl_cons]
    cases sole : soleOperand subst p with
    | none =>
      have same : (p :: acc).reverse ++ rest = acc.reverse ++ p :: rest := by simp
      rw [← same] at nodup folded ⊢
      have step : foldTrivial (subst, acc) p = (subst, p :: acc) := by simp [foldTrivial, sole]
      rw [step]
      exact ih (p :: acc) subst grounded nodup folded
    | some value =>
      have step : foldTrivial (subst, acc) p = (subst.insert p.target value, acc) := by
        simp [foldTrivial, sole]
      have size : (subst.insert p.target value).size = subst.size := by simp [Substitution.insert]
      have absent : p ∉ acc.reverse ++ rest := (nodup_middle.mp nodup).notMem
      have others : ∀ q, q ∈ acc.reverse ++ rest ↔ q ∈ acc.reverse ++ p :: rest ∧ q ≠ p := by
        intro q
        rw [perm_middle.mem_iff, mem_cons]
        exact ⟨fun there => ⟨.inr there, fun same => absent (same ▸ there)⟩,
          fun ⟨there, different⟩ => there.resolve_left different⟩
      have next := folded.insert grounded (by simp) others sole
      obtain ⟨after, sub, sizes⟩ := ih acc (subst.insert p.target value)
        (by rwa [size]) (nodup_middle.mp nodup).of_cons next
      rw [step]
      refine ⟨after, sub.trans ?_, sizes.trans size⟩
      exact (Sublist.refl _).append (sublist_cons_self p rest)

theorem foldAll_spec (fuel : Nat) (left : List PendingPhi) (subst : Substitution)
    (grounded : Grounded phis subst.size) (nodup : left.Nodup) (folded : Folded phis left subst) :
    Folded phis (foldAll fuel subst left).2 (foldAll fuel subst left).1 ∧
      (foldAll fuel subst left).2.Sublist left := by
  induction fuel generalizing left subst with
  | zero => exact ⟨folded, .refl _⟩
  | succ fuel ih =>
    obtain ⟨after, sub, size⟩ := foldRound left [] subst grounded nodup folded
    unfold foldAll
    dsimp only
    split
    next same =>
      have all : (left.foldl foldTrivial (subst, [])).2.reverse = left :=
        sub.eq_of_length (by simpa using same)
      rw [all] at after
      exact ⟨after, .refl _⟩
    · obtain ⟨last, fewer⟩ := ih _ (left.foldl foldTrivial (subst, [])).1
        (by rwa [size]) (nodup.sublist sub) after
      exact ⟨last, fewer.trans sub⟩

/-- Which joins are replaced by what in the end. -/
structure Resolved (phis kept : List PendingPhi) (resolve : LocalId → LocalId) : Prop where
  sub : kept.Sublist phis
  le : ∀ l : Nat, resolve l ≤ l
  last : ∀ l, resolve (resolve l) = resolve l
  fixed : ∀ l, (∀ p ∈ phis, p ∉ kept → p.target ≠ l) → resolve l = l
  operands : ∀ p ∈ phis, p ∉ kept → ∀ a ∈ p.args, resolve a.value = resolve p.target

theorem resolved_foldAll (grounded : Grounded phis size) :
    Resolved phis (foldAll (phis.length + 1) (.identity size) phis).2
      (foldAll (phis.length + 1) (.identity size) phis).1.resolve := by
  have nodup : phis.Nodup := .of_map _ grounded.nodup
  have nothing : ∀ id : Nat, (Substitution.identity size).getD id none = none := by
    intro id
    by_cases inside : id < size
    · simp [Substitution.identity, inside]
    · simp [Substitution.identity, inside]
  have start : Folded phis phis (.identity size) := by
    refine ⟨?_, fun p => id, ?_, fun p inside absent => absurd inside absent⟩
    · intro id next found
      rw [nothing] at found
      cases found
    · intro id next found
      rw [nothing] at found
      cases found
  obtain ⟨folded, sub⟩ := foldAll_spec (phis.length + 1) phis (.identity size)
    (by simpa [Substitution.identity] using grounded) nodup start
  refine ⟨sub, fun l => (Substitution.resolve_le folded.decreasing l).1,
    fun l => Substitution.resolve_of_none (Substitution.resolve_le folded.decreasing l).2, ?_,
    folded.operands⟩
  intro l notReplaced
  apply Substitution.resolve_of_none
  cases found : (foldAll (phis.length + 1) (.identity size) phis).1.getD l none with
  | none => rfl
  | some next =>
    obtain ⟨p, inside, absent, same⟩ := folded.replaced l next found
    exact absurd same (notReplaced p inside absent)

end Lower

end DexLift
