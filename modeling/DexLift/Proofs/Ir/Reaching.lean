import DexLift.Proofs.Ir.Trails
import Mathlib.Data.List.Count

/-!
# Reachable positions

The search for reachable positions puts a position on its list when it marks it.
Every round takes one position off the list and marks as many as it puts on, so
that unmarked positions and listed ones together get one fewer each time; the
search has as many rounds as there are positions and therefore comes to its end.
What it has marked then is what some path from the entry leads to.
-/

namespace DexLift.Ir

open List

theorem nodup_eraseDups {α : Type} [BEq α] [LawfulBEq α] (xs : List α) : xs.eraseDups.Nodup := by
  induction length : xs.length using Nat.strongRecOn generalizing xs with
  | ind n ih =>
    cases xs with
    | nil => simp
    | cons x xs =>
      rw [eraseDups_cons, nodup_cons, mem_eraseDups]
      have shorter := length_filter_le (fun y => !y == x) xs
      exact ⟨by simp, ih _ (by rw [length_cons] at length; omega) _ rfl⟩

namespace Flow

/-- A path from the entry leads to a position. -/
inductive Reaches (f : Flow) : Nat → Prop where
  | start (inside : 0 < f.size) : Reaches f 0
  | edge {position next : Nat} (reached : Reaches f position)
      (edge : next ∈ f.succsOf position ∨ next ∈ f.exSuccsOf position) (inside : next < f.size) :
      Reaches f next

def Marked (seen : Array Bool) (position : Nat) : Prop := seen.getD position false = true

section Marking

variable {seen : Array Bool} {found : List Nat} {position : Nat}

theorem marked_set (i : Nat) : Marked (seen.setIfInBounds i true) position ↔
    Marked seen position ∨ (position = i ∧ i < seen.size) := by
  rw [Marked, Marked, getD_set]
  split <;> simp_all

theorem marked_foldl : Marked (found.foldl (fun seen i => seen.setIfInBounds i true) seen) position ↔
    Marked seen position ∨ (position ∈ found ∧ position < seen.size) := by
  induction found generalizing seen with
  | nil => simp
  | cons i found ih =>
    rw [foldl_cons, ih, marked_set, Array.size_setIfInBounds, mem_cons, or_assoc]
    refine or_congr_right ?_
    constructor
    · rintro (⟨rfl, inside⟩ | ⟨member, inside⟩)
      · exact ⟨.inl rfl, inside⟩
      · exact ⟨.inr member, inside⟩
    · rintro ⟨rfl | member, inside⟩
      · exact .inl ⟨rfl, inside⟩
      · exact .inr ⟨member, inside⟩

theorem size_foldl_mark :
    (found.foldl (fun seen i => seen.setIfInBounds i true) seen).size = seen.size := by
  induction found generalizing seen with
  | nil => rfl
  | cons i found ih =>
    rw [foldl_cons, ih, Array.size_setIfInBounds]

theorem count_set {i : Nat} (unmarked : seen[i]? = some false) :
    (seen.setIfInBounds i true).toList.count false + 1 = seen.toList.count false := by grind

theorem count_foldl (distinct : found.Nodup) (unmarked : ∀ i ∈ found, seen[i]? = some false) :
    (found.foldl (fun seen i => seen.setIfInBounds i true) seen).toList.count false +
      found.length = seen.toList.count false := by
  induction found generalizing seen with
  | nil => simp
  | cons i found ih =>
    obtain ⟨absent, distinct⟩ := nodup_cons.mp distinct
    have first := count_set (unmarked i mem_cons_self)
    have unmarked' : ∀ j ∈ found, (seen.setIfInBounds i true)[j]? = .some false := by grind
    have rest := ih distinct unmarked'
    rw [foldl_cons, length_cons]
    omega

end Marking

section Search

variable {f : Flow}

/-- What one round of the search adds to its list. -/
def fresh (f : Flow) (position : Nat) (seen : Array Bool) : List Nat :=
  (f.succsOf position ++ f.exSuccsOf position).eraseDups.filter fun j => !seen.getD j true

theorem mem_fresh {position i : Nat} {seen : Array Bool} : i ∈ f.fresh position seen ↔
    (i ∈ f.succsOf position ∨ i ∈ f.exSuccsOf position) ∧ seen[i]? = some false := by
  rw [fresh, mem_filter, mem_eraseDups, mem_append]
  refine and_congr_right fun _ => ?_
  rw [Array.getD_eq_getD_getElem?]
  cases seen[i]? with
  | none => simp
  | some b => cases b <;> simp

theorem mark_sound {fuel : Nat} {work : List Nat} {seen : Array Bool} (size : seen.size = f.size)
    (listed : ∀ i ∈ work, Marked seen i) (sound : ∀ i, Marked seen i → f.Reaches i) (i : Nat) :
    (Marked seen i → Marked (f.mark fuel work seen) i) ∧
      (Marked (f.mark fuel work seen) i → f.Reaches i) := by
  induction fuel generalizing work seen with
  | zero => exact ⟨id, sound i⟩
  | succ fuel ih =>
    cases work with
    | nil => exact ⟨id, sound i⟩
    | cons position work =>
      have reached : f.Reaches position := sound _ (listed _ mem_cons_self)
      have listed' : ∀ j ∈ (f.fresh position seen).reverse ++ work, Marked
          ((f.fresh position seen).foldl (fun seen j => seen.setIfInBounds j true) seen) j := by
        intro j member
        rw [marked_foldl]
        rcases mem_append.mp member with new | old
        · rw [mem_reverse] at new
          exact .inr ⟨new, (Array.getElem?_eq_some_iff.mp (mem_fresh.mp new).2).1⟩
        · exact .inl (listed j (.tail _ old))
      have later := ih (size_foldl_mark.trans size) listed' (by
        intro j marked
        rcases marked_foldl.mp marked with old | ⟨new, inside⟩
        · exact sound j old
        · exact reached.edge (mem_fresh.mp new).1 (size ▸ inside))
      exact ⟨fun old => later.1 (marked_foldl.mpr (.inl old)), later.2⟩

/-- With enough rounds the search ends with nothing listed, so that every edge out of a marked
position leads to a marked one. -/
theorem mark_closed {fuel : Nat} {work : List Nat} {seen : Array Bool} (size : seen.size = f.size)
    (enough : seen.toList.count false + work.length ≤ fuel)
    (closed : ∀ i, Marked seen i → i ∉ work →
      ∀ j, (j ∈ f.succsOf i ∨ j ∈ f.exSuccsOf i) → j < f.size → Marked seen j) :
    ∀ i, Marked (f.mark fuel work seen) i →
      ∀ j, (j ∈ f.succsOf i ∨ j ∈ f.exSuccsOf i) → j < f.size →
        Marked (f.mark fuel work seen) j := by
  induction fuel generalizing work seen with
  | zero =>
    obtain rfl : work = [] := length_eq_zero_iff.mp (by omega)
    exact fun i marked => closed i marked (by simp)
  | succ fuel ih =>
    cases work with
    | nil => exact fun i marked => closed i marked (by simp)
    | cons position work =>
      have distinct : (f.fresh position seen).Nodup := (nodup_eraseDups _).filter _
      have counted := count_foldl distinct fun i member => (mem_fresh.mp member).2
      refine @ih ((f.fresh position seen).reverse ++ work) _
        (size_foldl_mark.trans size) ?_ ?_
      · simp only [length_append, length_reverse]
        rw [length_cons] at enough
        unfold fresh at counted ⊢
        omega
      · intro i marked outside j edge inside
        rw [marked_foldl] at marked ⊢
        simp only [mem_append, mem_reverse, not_or] at outside
        rcases marked with old | ⟨new, -⟩
        · by_cases same : i = position
          · subst same
            by_cases known : seen[j]? = some false
            · exact .inr ⟨mem_fresh.mpr ⟨edge, known⟩, size ▸ inside⟩
            · left
              have bound : j < seen.size := size ▸ inside
              rw [Array.getElem?_eq_getElem bound] at known
              simpa [Marked, bound] using known
          · exact .inl (closed i old (by simp [same, outside.2]) j edge inside)
        · exact absurd new outside.1

theorem isReachable_iff {position : Nat} : f.isReachable position = true ↔ f.Reaches position := by
  unfold isReachable reachable
  dsimp only
  split
  next empty =>
    constructor
    · intro marked
      simp [empty] at marked
    · intro reached
      cases reached <;> omega
  next some =>
    have positive : 0 < f.size := Nat.pos_of_ne_zero some
    let seen := (Array.replicate f.size false).setIfInBounds 0 true
    have size : seen.size = f.size := by simp [seen]
    have first : ∀ i, Marked seen i ↔ i = 0 := by
      intro i
      rw [marked_set]
      simp only [Marked, Array.getD_eq_getD_getElem?, Array.size_replicate, positive]
      constructor
      · rintro (marked | ⟨rfl, -⟩)
        · rw [Array.getElem?_replicate] at marked
          split at marked <;> simp at marked
        · rfl
      · exact fun zero => .inr ⟨zero, trivial⟩
    have count : seen.toList.count false + 1 = f.size := by
      have unmarked : (Array.replicate f.size false)[0]? = .some false := by
        simp [positive]
      rw [count_set unmarked, Array.toList_replicate, count_replicate_self]
    have sound : ∀ i, (Marked seen i → Marked (f.mark f.size [0] seen) i) ∧
        (Marked (f.mark f.size [0] seen) i → f.Reaches i) :=
      mark_sound size (by simp [first]) fun i marked => (first i).mp marked ▸ .start positive
    refine ⟨(sound position).2, ?_⟩
    intro reached
    have closed := @mark_closed f f.size [0] _ size count.le fun i marked outside =>
      absurd ((first i).mp marked) (by simpa using outside)
    induction reached with
    | start => exact (sound 0).1 ((first 0).mpr rfl)
    | edge _ edge inside ih => exact closed _ ih _ edge inside

end Search

end Flow

end DexLift.Ir

/-!
# What is assigned is what every path defines

The analysis never takes away what every path defines, and what it leaves when it
comes to rest every path defines. So it finds the meet over all paths, at every
position of the body: what comes over an edge is one more definition or none, and
that distributes over intersections.

The entry is kept empty though edges may lead back to it, since the empty path
leads there too. Where no path leads every local is assigned; such a position
carries the full set over its edges and takes nothing away from the others.
-/

namespace DexLift.Ir

theorem Flow.Reaches.lt {f : Flow} {position : Nat} (reached : f.Reaches position) :
    position < f.size := by
  cases reached with
  | start inside | edge _ _ inside => exact inside

theorem holds_definitelyAssigned_iff (m : Method) {position : Nat}
    (inside : position < (Flow.ofMethod m).size) (locals : Nat) (l : LocalId) :
    Holds (definitelyAssigned (Flow.ofMethod m) locals) position l ↔
      l < locals ∧ (Flow.ofMethod m).Assigns position l := by
  constructor
  · intro here
    obtain ⟨within, -⟩ := definitelyAssigned_fixed (Flow.ofMethod m) locals
    exact ⟨within.lt position l here, assigns_of_holds here⟩
  · rintro ⟨known, always⟩
    exact holds_definitelyAssigned inside known always

/-- The analysis is exact. It has one set for each statement, and where control can come the set is
that of the locals which every path from the entry defines before it gets there; a statement left
over an exceptional edge adds what was defined in front of it and not its own definition. -/
theorem assigned_iff_on_every_path (m : Method) (position : Nat)
    (reached : (Flow.ofMethod m).Reaches position) :
    (definitelyAssigned (Flow.ofMethod m) m.locals.size).size = m.order.size ∧
      ∀ l, Holds (definitelyAssigned (Flow.ofMethod m) m.locals.size) position l ↔
        l < m.locals.size ∧
          ∀ assigned, (Flow.ofMethod m).Path position assigned → l ∈ assigned := by
  obtain ⟨within, -⟩ := definitelyAssigned_fixed (Flow.ofMethod m) m.locals.size
  refine ⟨?_, fun l => holds_definitelyAssigned_iff m reached.lt m.locals.size l⟩
  rw [within.size_eq, Flow.size_ofMethod]

/-- Makes an array in a loop that leads back to the entry, and gives the local from the entry when
that fails. The handler has a predecessor that control never comes to. -/
def restarting : Method :=
  { owner := ∅, name := ∅, desc := ∅, access := default, params := [], result := ∅
    locals := Array.replicate 3 { type := .int }
    traps := [⟨.number 1, .number 2, .number 3, ∅⟩]
    stmts := #[
      ⟨.label (.number 0), none⟩,
      ⟨.assign 0 (.leaf (.param 0)), none⟩,
      ⟨.label (.number 1), none⟩,
      ⟨.assign 1 (.leaf (.newArray ∅)), none⟩,
      ⟨.label (.number 2), none⟩,
      ⟨.branch .eq (.read 0) none (.number 0), none⟩,
      ⟨.return (some (.read 1)), none⟩,
      ⟨.goto (.number 3), none⟩,
      ⟨.label (.number 3), none⟩,
      ⟨.identity 2 (.leaf (.caught .int ∅)), none⟩,
      ⟨.return (some (.read 0)), none⟩]
    order := #[0, 1, 2, 3, 4, 5, 6, 7, 8, 9, 10]
    placed := #[some 0, some 2, some 4, some 8] }

/-- The handler is reached with the entry's local assigned on every path. The local that the throwing
statement defines is assigned on some paths only, those that have been round the loop. -/
theorem assigned_iff_on_every_path_restarting :
    (Flow.ofMethod restarting).Reaches 9 ∧
      (∀ assigned, (Flow.ofMethod restarting).Path 9 assigned → 0 ∈ assigned) ∧
        ¬ ∀ assigned, (Flow.ofMethod restarting).Path 9 assigned → 1 ∈ assigned := by
  have reached : (Flow.ofMethod restarting).Reaches 9 :=
    Flow.isReachable_iff.mp (by with_unfolding_all decide)
  have exact := (assigned_iff_on_every_path restarting 9 reached).2
  refine ⟨reached, ((exact 0).mp (by with_unfolding_all decide)).2, fun always => ?_⟩
  have missing :
      ¬ Holds (definitelyAssigned (Flow.ofMethod restarting) restarting.locals.size) 9 1 := by
    with_unfolding_all decide
  exact missing ((exact 1).mpr ⟨by decide, always⟩)

end DexLift.Ir
