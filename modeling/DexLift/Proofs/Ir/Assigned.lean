import DexLift.Proofs.Ir.Liveness

/-!
# What every path assigns

The analysis of assigned locals starts with all of them everywhere but at the
entry, and takes away what some edge does not carry. It never takes away a local
that every path to a position assigns, however many rounds it makes. The rounds
granted are enough for it to come to rest, and what is left then is assigned on
every path.
-/

namespace DexLift.Ir

open List

namespace Flow

/-- A path from the entry to a position, and the locals that it has assigned, the last one first.
An exceptional edge leaves a statement before its own definition takes effect. -/
inductive Path (f : Flow) : Nat → List LocalId → Prop where
  | start : Path f 0 []
  | normal {position next : Nat} {assigned : List LocalId} (path : Path f position assigned)
      (edge : next ∈ f.succsOf position) :
      Path f next ((f.action position).defines?.toList ++ assigned)
  | thrown {position next : Nat} {assigned : List LocalId} (path : Path f position assigned)
      (edge : next ∈ f.exSuccsOf position) : Path f next assigned

def Assigns (f : Flow) (position : Nat) (l : LocalId) : Prop :=
  ∀ assigned, f.Path position assigned → l ∈ assigned

section

variable {f : Flow} {position next : Nat} {l : LocalId}

theorem not_assigns_zero : ¬ f.Assigns 0 l := by
  intro always
  cases always [] .start

theorem Assigns.of_normal (always : f.Assigns next l) (edge : next ∈ f.succsOf position) :
    (f.action position).defines? = some l ∨ f.Assigns position l := by
  by_cases own : (f.action position).defines? = some l
  · exact .inl own
  · right
    intro assigned path
    rcases mem_append.mp (always _ (path.normal edge)) with here | before
    · exact absurd (Option.mem_toList.mp here) own
    · exact before

theorem Assigns.of_thrown (always : f.Assigns next l) (edge : next ∈ f.exSuccsOf position) :
    f.Assigns position l :=
  fun _ path => always _ (path.thrown edge)

end

end Flow

section Analysis

variable {assigned : LocalSet} {position : Nat}

variable {f : Flow} {locals : Nat} {sets : Array LocalSet}

structure Covers (f : Flow) (locals : Nat) (sets : Array LocalSet) : Prop where
  size_eq : sets.size = f.size
  holds : ∀ position < f.size, ∀ l < locals, f.Assigns position l → Holds sets position l

theorem Covers.narrow (covers : Covers f locals sets) {target : Nat}
    (carried : ∀ l < locals, f.Assigns target l → assigned.mem l = true) :
    Covers f locals (narrow sets assigned target) := by
  unfold Ir.narrow
  split
  · exact covers
  · refine ⟨(Array.size_modify ..).trans covers.size_eq, ?_⟩
    intro position inside l known always
    have before := covers.holds position inside l known always
    rw [Holds] at before ⊢
    rw [getD_modify]
    split
    next same => simpa [carried l known (same.1 ▸ always)] using before
    · exact before

theorem Covers.narrowAll (targets : List Nat)
    (carried : ∀ target ∈ targets, ∀ l < locals, f.Assigns target l → assigned.mem l = true)
    (covers : Covers f locals sets) :
    Covers f locals (targets.foldl (Ir.narrow · assigned) sets) := by
  induction targets generalizing sets with
  | nil => exact covers
  | cons target targets ih =>
    refine ih (fun other member => carried other (.tail _ member)) ?_
    exact covers.narrow (carried target mem_cons_self)

theorem Covers.carry (covers : Covers f locals sets) (inside : position < f.size) :
    Covers f locals (carryAssigned f sets position) := by
  have here : ∀ l < locals, f.Assigns position l →
      (sets.getD position .empty).mem l = true := covers.holds position inside
  unfold carryAssigned
  refine .narrowAll _ ?_ (.narrowAll _ ?_ covers)
  · intro target edge l known always
    exact here l known (always.of_thrown edge)
  · intro target edge l known always
    rcases always.of_normal edge with own | before
    · rw [own]
      simp
    · split
      · rw [LocalSet.mem_insert, here l known before, Bool.true_or]
      · exact here l known before

theorem Covers.round (covers : Covers f locals sets) :
    Covers f locals ((range f.size).foldl (carryAssigned f) sets) := by
  refine List.foldlRecOn _ _ covers ?_
  intro sets covers position listed
  exact covers.carry (mem_range.mp listed)

theorem Covers.settle (fuel : Nat) (covers : Covers f locals sets) :
    Covers f locals (settleAssigned f fuel sets) := by
  induction fuel generalizing sets with
  | zero => exact covers
  | succ fuel ih =>
    unfold settleAssigned
    dsimp only
    split
    · exact covers
    · exact ih covers.round

/-- The table that the analysis begins with. -/
def assignedStart (f : Flow) (locals : Nat) : Array LocalSet :=
  (Array.replicate f.size (LocalSet.full locals)).setIfInBounds 0 .empty

theorem holds_definitelyAssigned {l : LocalId} (inside : position < f.size) (known : l < locals)
    (always : f.Assigns position l) : Holds (definitelyAssigned f locals) position l := by
  have start : Covers f locals (assignedStart f locals) := by
    refine ⟨by simp [assignedStart], ?_⟩
    intro position inside l known always
    cases position with
    | zero => exact absurd always Flow.not_assigns_zero
    | succ position =>
      have full : (LocalSet.full locals).mem l = true := by
        simp [LocalSet.full, LocalSet.mem, Nat.one_shiftLeft, known]
      simp [assignedStart, Holds, inside, full]
  exact (start.settle _).holds position inside l known always

end Analysis

/-! ## What the analysis keeps -/

section Settled

variable {assigned : LocalSet} {tables : Array LocalSet}

variable {f : Flow} {locals : Nat} {sets : Array LocalSet} {position target : Nat} {l : LocalId}

theorem holds_narrow : Holds (narrow sets assigned target) position l ↔
    Holds sets position l ∧ (position = target → target ≠ 0 → assigned.mem l = true) := by
  unfold narrow
  split
  next entry => simp [entry]
  next other =>
    by_cases inside : position < sets.size
    · rw [Holds, Holds, getD_modify]
      split
      next same => simp [same.1, other]
      next different => simp [show position ≠ target from fun same => different ⟨same, same ▸ inside⟩]
    · simp [Holds, inside]

theorem holds_narrowAll (targets : List Nat) :
    Holds (targets.foldl (narrow · assigned) sets) position l ↔
      Holds sets position l ∧ (position ∈ targets → position ≠ 0 → assigned.mem l = true) := by
  induction targets generalizing sets with
  | nil => simp
  | cons target targets ih =>
    rw [foldl_cons, ih, holds_narrow, and_assoc]
    refine and_congr_right fun _ => ?_
    constructor
    · rintro ⟨here, there⟩ member notEntry
      rcases mem_cons.mp member with rfl | later
      · exact here rfl notEntry
      · exact there later notEntry
    · intro all
      refine ⟨?_, fun later => all (.tail _ later)⟩
      rintro rfl
      exact all mem_cons_self

theorem holds_carryAssigned {next : Nat} : Holds (carryAssigned f sets position) next l ↔
    Holds sets next l ∧
      (next ∈ f.succsOf position → next ≠ 0 →
        (f.action position).defines? = some l ∨ Holds sets position l) ∧
      (next ∈ f.exSuccsOf position → next ≠ 0 → Holds sets position l) := by
  unfold carryAssigned
  rw [holds_narrowAll, holds_narrowAll, and_assoc]
  refine and_congr_right fun _ => and_congr_left fun _ => ?_
  cases (f.action position).defines? with
  | none => simp [Holds]
  | some target => simp [Holds, or_comm]

structure Shrinks (sets tables : Array LocalSet) : Prop where
  size_eq : tables.size = sets.size
  fewer : ∀ position l, Holds tables position l → Holds sets position l

theorem Shrinks.refl (sets : Array LocalSet) : Shrinks sets sets := ⟨rfl, fun _ _ here => here⟩

theorem Shrinks.trans {middle : Array LocalSet} (first : Shrinks sets middle)
    (second : Shrinks middle tables) : Shrinks sets tables :=
  ⟨second.size_eq.trans first.size_eq, fun position l here =>
    first.fewer position l (second.fewer position l here)⟩

theorem Shrinks.antisymm (first : Shrinks sets tables) (second : Shrinks tables sets) :
    tables = sets :=
  eq_of_holds first.size_eq fun position l => ⟨first.fewer position l, second.fewer position l⟩

theorem Shrinks.within {size : Nat} (shrinks : Shrinks sets tables)
    (within : Within size locals sets) : Within size locals tables :=
  ⟨shrinks.size_eq.trans within.size_eq, fun position l here =>
    within.lt position l (shrinks.fewer position l here)⟩

theorem shrinks_carryAssigned (f : Flow) (sets : Array LocalSet) (position : Nat) :
    Shrinks sets (carryAssigned f sets position) := by
  have narrowed : ∀ (assigned : LocalSet) (targets : List Nat) (sets : Array LocalSet),
      (targets.foldl (narrow · assigned) sets).size = sets.size := by
    intro assigned targets
    induction targets with
    | nil => exact fun _ => rfl
    | cons target targets ih =>
      intro sets
      rw [foldl_cons, ih, narrow]
      split
      · rfl
      · exact Array.size_modify ..
  refine ⟨?_, fun _ _ here => (holds_carryAssigned.mp here).1⟩
  unfold carryAssigned
  rw [narrowed, narrowed]

theorem shrinks_carries (f : Flow) (positions : List Nat) (sets : Array LocalSet) :
    Shrinks sets (positions.foldl (carryAssigned f) sets) := by
  induction positions generalizing sets with
  | nil => exact .refl sets
  | cons first positions ih =>
    exact (shrinks_carryAssigned f sets first).trans (ih _)

theorem carryAssigned_of_foldl {positions : List Nat}
    (same : positions.foldl (carryAssigned f) sets = sets) :
    ∀ position ∈ positions, carryAssigned f sets position = sets := by
  induction positions with
  | nil => exact fun _ none => absurd none not_mem_nil
  | cons first positions ih =>
    rw [foldl_cons] at same
    have back := shrinks_carries f positions (carryAssigned f sets first)
    rw [same] at back
    have here := (shrinks_carryAssigned f sets first).antisymm back
    rw [here] at same
    intro position member
    rcases mem_cons.mp member with rfl | later
    · exact here
    · exact ih same position later

/-- When there are more rounds than points, the rounds end because nothing changes. -/
theorem settleAssigned_fixed (fuel : Nat) (within : Within f.size locals sets)
    (enough : (points locals sets).card < fuel) :
    Shrinks sets (settleAssigned f fuel sets) ∧ ∀ position < f.size,
      carryAssigned f (settleAssigned f fuel sets) position = settleAssigned f fuel sets := by
  induction fuel generalizing sets with
  | zero => exact absurd enough (Nat.not_lt_zero _)
  | succ fuel ih =>
    have round := shrinks_carries f (range f.size) sets
    unfold settleAssigned
    dsimp only
    split
    next same =>
      exact ⟨.refl sets, fun position inside =>
        carryAssigned_of_foldl same position (mem_range.mpr inside)⟩
    next changed =>
      obtain ⟨le, equal⟩ := (round.within within).card_grows within round.fewer
      have less := Nat.lt_of_not_le fun many => changed (equal many).symm
      obtain ⟨shrinks, fixed⟩ := ih (round.within within) (by omega)
      exact ⟨round.trans shrinks, fixed⟩

theorem definitelyAssigned_fixed (f : Flow) (locals : Nat) :
    Within f.size locals (definitelyAssigned f locals) ∧
      (∀ l, ¬ Holds (definitelyAssigned f locals) 0 l) ∧ ∀ position < f.size,
        carryAssigned f (definitelyAssigned f locals) position = definitelyAssigned f locals := by
  have within : Within f.size locals (assignedStart f locals) := by
    refine ⟨by simp [assignedStart], fun position l here => ?_⟩
    have inside : position < f.size := by simpa [assignedStart] using here.lt
    rw [assignedStart, holds_set (by simpa using Nat.zero_lt_of_lt inside)] at here
    split at here
    · simp at here
    · simpa [Holds, inside, LocalSet.full, LocalSet.mem, Nat.one_shiftLeft] using here
  obtain ⟨shrinks, fixed⟩ := settleAssigned_fixed (f.size * locals + 1) within
    (Nat.lt_succ_of_le within.card_le)
  refine ⟨shrinks.within within, fun l here => ?_, fixed⟩
  have first := shrinks.fewer 0 l here
  rw [assignedStart, holds_set (by simpa [assignedStart] using first.lt), if_pos rfl] at first
  simp at first

theorem assigns_of_holds {m : Method} {locals : Nat}
    (here : Holds (definitelyAssigned (Flow.ofMethod m) locals) position l) :
    (Flow.ofMethod m).Assigns position l := by
  obtain ⟨-, entry, fixed⟩ := definitelyAssigned_fixed (Flow.ofMethod m) locals
  intro assigned path
  induction path with
  | start => exact absurd here (entry l)
  | @normal position next assigned path edge ih =>
    have notEntry : next ≠ 0 := fun same => entry l (same ▸ here)
    rw [← fixed position (Flow.lt_size_of_edge (.inl edge))] at here
    rcases (holds_carryAssigned.mp here).2.1 edge notEntry with own | before
    · exact mem_append_left _ (Option.mem_toList.mpr own)
    · exact mem_append_right _ (ih before)
  | @thrown position next assigned path edge ih =>
    have notEntry : next ≠ 0 := fun same => entry l (same ▸ here)
    rw [← fixed position (Flow.lt_size_of_edge (.inr edge))] at here
    exact ih ((holds_carryAssigned.mp here).2.2 edge notEntry)

end Settled

end DexLift.Ir
