import DexLift.Ir.Liveness
import DexLift.Proofs.Ir.Flow
import Mathlib.Data.Finset.Card
import Mathlib.Data.Finset.Prod
import Mathlib.Logic.Relation

/-!
# Live locals as a solution of the flow equations

The rounds of the analysis only ever add locals, and a position and a local that
are in a set make one point out of finitely many. A round that changes something
adds a point, so the rounds granted are enough: what they leave is changed by no
further update, and therefore satisfies the equations of liveness.
-/

namespace DexLift.Ir

open List

variable {sets : Array LocalSet} {positions : List Nat} {id : LocalId} {position : Nat}

namespace LocalSet

theorem eq_of_mem {s t : LocalSet} (same : ∀ id, s.mem id = t.mem id) : s = t := by
  have bits : s.bits = t.bits := Nat.eq_of_testBit_eq same
  cases s
  cases t
  simpa using bits

end LocalSet

def Holds (sets : Array LocalSet) (position : Nat) (id : LocalId) : Prop :=
  (sets.getD position .empty).mem id = true

instance (sets : Array LocalSet) (position : Nat) (id : LocalId) :
    Decidable (Holds sets position id) := inferInstanceAs (Decidable (_ = true))

theorem mem_unionAt :
    (unionAt sets positions).mem id = true ↔ ∃ j ∈ positions, Holds sets j id := by
  suffices general : ∀ s : LocalSet,
      (positions.foldl (fun sum j => sum.union (sets.getD j .empty)) s).mem id = true ↔
        s.mem id = true ∨ ∃ j ∈ positions, Holds sets j id by
    simpa only [unionAt, LocalSet.mem_empty, Bool.false_eq_true, false_or] using general .empty
  induction positions with
  | nil => simp
  | cons first positions ih =>
    intro s
    rw [foldl_cons, ih, LocalSet.mem_union]
    simp [Holds, or_assoc]

theorem Holds.lt (here : Holds sets position id) : position < sets.size := by
  by_contra outside
  simp [Holds, outside] at here

theorem holds_set {other : Nat} {s : LocalSet} (inside : position < sets.size) :
    Holds (sets.setIfInBounds position s) other id ↔
      if other = position then s.mem id = true else Holds sets other id := by
  by_cases same : other = position
  · subst same
    simp [Holds, inside]
  · simp [Holds, same, Ne.symm same]

theorem eq_of_holds {tables : Array LocalSet} (size : sets.size = tables.size)
    (same : ∀ position id, Holds sets position id ↔ Holds tables position id) : sets = tables := by
  refine Array.ext size ?_
  intro position inside inside'
  refine LocalSet.eq_of_mem ?_
  intro id
  have here := same position id
  simp only [Holds, Array.getD_eq_getD_getElem?, Array.getElem?_eq_getElem inside,
    Array.getElem?_eq_getElem inside', Option.getD_some] at here
  exact Bool.eq_iff_iff.mpr here

def points (locals : Nat) (sets : Array LocalSet) : Finset (Nat × LocalId) :=
  (Finset.range sets.size ×ˢ Finset.range locals).filter fun point => Holds sets point.1 point.2

/-- A table of sets of locals below a bound. -/
structure Within (size locals : Nat) (sets : Array LocalSet) : Prop where
  size_eq : sets.size = size
  lt : ∀ position id, Holds sets position id → id < locals

section Points

variable {size locals : Nat} {sets tables : Array LocalSet}

theorem Within.mem_points (within : Within size locals sets) :
    (position, id) ∈ points locals sets ↔ Holds sets position id := by
  simp only [points, Finset.mem_filter, Finset.mem_product, Finset.mem_range, and_iff_right_iff_imp]
  exact fun here => ⟨here.lt, within.lt position id here⟩

theorem Within.card_le (within : Within size locals sets) :
    (points locals sets).card ≤ size * locals := by
  calc (points locals sets).card
      ≤ (Finset.range sets.size ×ˢ Finset.range locals).card := Finset.card_filter_le _ _
    _ = size * locals := by
      rw [Finset.card_product, Finset.card_range, Finset.card_range, within.size_eq]

theorem Within.card_grows (old : Within size locals sets) (new : Within size locals tables)
    (more : ∀ position id, Holds sets position id → Holds tables position id) :
    (points locals sets).card ≤ (points locals tables).card ∧
      ((points locals tables).card ≤ (points locals sets).card → tables = sets) := by
  have subset : points locals sets ⊆ points locals tables := by
    rintro ⟨position, id⟩ here
    exact new.mem_points.mpr (more position id (old.mem_points.mp here))
  refine ⟨Finset.card_le_card subset, ?_⟩
  intro few
  have equal := Finset.eq_of_subset_of_card_le subset few
  refine eq_of_holds (new.size_eq.trans old.size_eq.symm) ?_
  intro position id
  rw [← new.mem_points, ← old.mem_points, equal]

end Points

namespace Liveness

/-- Both tables are tables of locals below the bound. -/
structure Bounded (f : Flow) (locals : Nat) (live : Liveness) : Prop where
  before : Within f.size locals live.before
  after : Within f.size locals live.after

/-- The points of both tables. -/
def weight (locals : Nat) (live : Liveness) : Nat :=
  (points locals live.before).card + (points locals live.after).card

section Update

variable {f : Flow} {locals position : Nat} {live : Liveness}

section

variable (bounded : live.Bounded f locals) (inside : position < f.size) (other : Nat) (id : LocalId)

include bounded inside

theorem holds_after_update :
    Holds (update f live position).after other id ↔ Holds live.after other id ∨
      (other = position ∧ ∃ j ∈ f.succsOf position ++ f.exSuccsOf position, Holds live.before j id) := by
  rw [update, holds_set (bounded.after.size_eq ▸ inside)]
  split
  next same =>
    subst same
    simp only [LocalSet.mem_union, Bool.or_eq_true, mem_unionAt, mem_append, true_and, Holds,
      or_and_right, exists_or, or_assoc]
  next different => simp [different]

theorem holds_before_update :
    Holds (update f live position).before other id ↔ Holds live.before other id ∨
      (other = position ∧
        ((Holds (update f live position).after position id ∧
            (f.action position).defines? ≠ some id) ∨
          (f.action position).reads.mem id = true ∨
            ∃ j ∈ f.exSuccsOf position, Holds live.before j id)) := by
  have after : Holds (update f live position).after position id ↔
      (((live.after.getD position .empty).union (unionAt live.before (f.succsOf position))).union
          (unionAt live.before (f.exSuccsOf position))).mem id = true := by
    rw [update, holds_set (bounded.after.size_eq ▸ inside), if_pos rfl]
  rw [after, update, holds_set (bounded.before.size_eq ▸ inside)]
  split
  next same =>
    subst same
    cases target : (f.action other).defines? with
    | none | some target => simp [mem_unionAt, Holds, or_assoc]
  next different => simp [different]

end

section

variable (bounded : live.Bounded f locals)
  (reads : ∀ id, (f.action position).reads.mem id = true → id < locals) (inside : position < f.size)

include bounded reads inside

theorem Bounded.update : (Liveness.update f live position).Bounded f locals := by
  have after : ∀ other id, Holds (Liveness.update f live position).after other id →
      id < locals := by
    intro other id here
    rcases (holds_after_update bounded inside other id).mp here with old | ⟨-, j, -, next⟩
    · exact bounded.after.lt other id old
    · exact bounded.before.lt j id next
  refine ⟨⟨?_, ?_⟩, ⟨?_, after⟩⟩
  · simpa [Liveness.update] using bounded.before.size_eq
  · intro other id here
    rcases (holds_before_update bounded inside other id).mp here with
      old | ⟨-, ⟨kept, -⟩ | read | ⟨j, -, thrown⟩⟩
    · exact bounded.before.lt other id old
    · exact after position id kept
    · exact reads id read
    · exact bounded.before.lt j id thrown
  · simpa [Liveness.update] using bounded.after.size_eq

theorem weight_update :
    live.weight locals ≤ (update f live position).weight locals ∧
      ((update f live position).weight locals ≤ live.weight locals →
        update f live position = live) := by
  have next := bounded.update reads inside
  have before := bounded.before.card_grows next.before fun other id here =>
    (holds_before_update bounded inside other id).mpr (.inl here)
  have after := bounded.after.card_grows next.after fun other id here =>
    (holds_after_update bounded inside other id).mpr (.inl here)
  refine ⟨Nat.add_le_add before.1 after.1, ?_⟩
  intro few
  have fewBefore := before.2 (by have := after.1; unfold weight at few; omega)
  have fewAfter := after.2 (by have := before.1; unfold weight at few; omega)
  calc update f live position
      = ⟨(update f live position).before, (update f live position).after⟩ := rfl
    _ = ⟨live.before, live.after⟩ := by rw [fewBefore, fewAfter]

end

end Update

section Rounds

variable {f : Flow} {locals : Nat}

/-- Updates at several positions keep the tables bounded and add points; when they add none, every
one of them changes nothing. -/
theorem updates_grow
    (reads : ∀ position id, (f.action position).reads.mem id = true → id < locals)
    (positions : List Nat) (inside : ∀ position ∈ positions, position < f.size) (live : Liveness)
    (bounded : live.Bounded f locals) :
    (positions.foldl (update f) live).Bounded f locals ∧
      live.weight locals ≤ (positions.foldl (update f) live).weight locals ∧
      ((positions.foldl (update f) live).weight locals ≤ live.weight locals →
        ∀ position ∈ positions, update f live position = live) := by
  induction positions generalizing live with
  | nil => exact ⟨bounded, le_rfl, fun _ _ none => absurd none (by simp)⟩
  | cons first positions ih =>
    have here := inside first (by simp)
    have step := weight_update bounded (reads first) here
    obtain ⟨boundedRest, grows, fixed⟩ :=
      ih (fun position member => inside position (by simp [member]))
        (update f live first) (bounded.update (reads first) here)
    refine ⟨boundedRest, le_trans step.1 grows, ?_⟩
    intro few
    have same : update f live first = live := step.2 (le_trans grows few)
    rw [foldl_cons, same] at few
    rw [same] at fixed
    intro position member
    rcases mem_cons.mp member with rfl | later
    · exact same
    · exact fixed few position later

theorem foldl_update_fixed {live : Liveness}
    (fixed : ∀ position ∈ positions, update f live position = live) :
    positions.foldl (update f) live = live := by
  induction positions with
  | nil => rfl
  | cons first positions ih =>
    rw [foldl_cons, fixed first (by simp)]
    exact ih fun position member => fixed position (by simp [member])

/-- When there are more rounds than missing points, the rounds end because nothing changes. -/
theorem update_settle
    (reads : ∀ position id, (f.action position).reads.mem id = true → id < locals)
    (fuel : Nat) (live : Liveness) (bounded : live.Bounded f locals)
    (enough : 2 * f.size * locals < live.weight locals + fuel) :
    (settle f fuel live).Bounded f locals ∧
      ∀ position < f.size, update f (settle f fuel live) position = settle f fuel live := by
  induction fuel generalizing live with
  | zero =>
    have most : live.weight locals ≤ f.size * locals + f.size * locals :=
      Nat.add_le_add bounded.before.card_le bounded.after.card_le
    have double : 2 * f.size * locals = f.size * locals + f.size * locals := by
      rw [Nat.mul_assoc, Nat.two_mul]
    omega
  | succ fuel ih =>
    obtain ⟨boundedNext, grows, fixed⟩ := updates_grow reads (range f.size).reverse
      (by simp) live bounded
    by_cases same : round f live = live
    · rw [settle, if_pos same]
      refine ⟨bounded, fun position inside => fixed ?_ position (by simpa using inside)⟩
      exact le_of_eq (congrArg (weight locals) same)
    · rw [settle, if_neg same]
      refine ih (round f live) boundedNext ?_
      have more : live.weight locals ≠ (round f live).weight locals := by
        intro equal
        exact same (foldl_update_fixed (fixed (le_of_eq equal.symm)))
      have grown : live.weight locals ≤ (round f live).weight locals := grows
      omega

/-- The equations of liveness. An exceptional edge leaves a statement before its definition. -/
structure Solves (f : Flow) (live : Liveness) : Prop where
  read : ∀ position < f.size, ∀ id, (f.action position).reads.mem id = true →
    Holds live.before position id
  kept : ∀ position < f.size, ∀ id, Holds live.after position id →
    (f.action position).defines? ≠ some id → Holds live.before position id
  next : ∀ position < f.size, ∀ successor ∈ f.succsOf position, ∀ id,
    Holds live.before successor id → Holds live.after position id
  thrown : ∀ position < f.size, ∀ handler ∈ f.exSuccsOf position, ∀ id,
    Holds live.before handler id → Holds live.before position id

section

variable (reads : ∀ position id, (f.action position).reads.mem id = true → id < locals)

include reads

theorem update_ofFlow :
    (ofFlow f locals).Bounded f locals ∧
      ∀ position < f.size, update f (ofFlow f locals) position = ofFlow f locals := by
  have start : Bounded f locals ⟨Array.replicate f.size .empty, Array.replicate f.size .empty⟩ := by
    constructor <;> refine ⟨by simp, ?_⟩ <;> intro position id here <;>
      simp [Holds, Array.getElem?_replicate] at here <;> split at here <;> simp at here
  exact update_settle reads (2 * f.size * locals + 1) _ start (by omega)

theorem solves_ofFlow : Solves f (ofFlow f locals) := by
  obtain ⟨bounded, fixed⟩ := update_ofFlow reads
  have before := fun position (inside : position < f.size) id =>
    holds_before_update bounded inside position id
  have after := fun position (inside : position < f.size) id =>
    holds_after_update bounded inside position id
  refine ⟨?_, ?_, ?_, ?_⟩
  · intro position inside id read
    have now := (before position inside id).mpr (.inr ⟨rfl, .inr (.inl read)⟩)
    rwa [fixed position inside] at now
  · intro position inside id here other
    rw [← fixed position inside] at here
    have now := (before position inside id).mpr (.inr ⟨rfl, .inl ⟨here, other⟩⟩)
    rwa [fixed position inside] at now
  · intro position inside successor edge id here
    have now := (after position inside id).mpr (.inr ⟨rfl, successor, mem_append_left _ edge, here⟩)
    rwa [fixed position inside] at now
  · intro position inside handler edge id here
    have now := (before position inside id).mpr (.inr ⟨rfl, .inr (.inr ⟨handler, edge, here⟩)⟩)
    rwa [fixed position inside] at now

end

end Rounds

theorem solves_ofMethod {m : Method}
    (known : ∀ a ∈ m.actions, ∀ l, a.reads.mem l = true → l < m.locals.size) :
    Solves (Flow.ofMethod m) (ofFlow (Flow.ofMethod m) m.locals.size) := by
  refine solves_ofFlow fun position l read => ?_
  rcases Flow.action_mem_or m position with member | nothing
  · exact known _ member l read
  · rw [nothing] at read
    simp [Action.reads, Action.uses, Action.operands, Action.value?, Action.phiArgs] at read

end Liveness

end DexLift.Ir

/-!
# What is live is what some path reads

A local is read ahead of a position when a path leads from there to a statement
that reads it and no statement before that one defines it. An exceptional edge
leaves a statement before its definition, so that the path may take it whatever
the statement defines.

The rounds of the analysis enter a local only where it is read ahead, because an
update follows one edge, and they end in a solution of the flow equations, which
has it wherever it is read ahead, by induction on the path. So the analysis finds
the least solution on every graph.
-/

namespace DexLift.Ir

/-! ## Reading ahead -/

/-- A statement reads a local, be it as operand of a join. -/
def Action.Reads (a : Action) (l : LocalId) : Prop :=
  l ∈ a.uses ∨ ∃ arg ∈ a.phiArgs, arg.value = l

instance (a : Action) (l : LocalId) : Decidable (a.Reads l) :=
  inferInstanceAs (Decidable (_ ∨ _))

theorem Action.mem_reads {a : Action} {l : LocalId} : a.reads.mem l = true ↔ a.Reads l := by
  simp [reads, Reads]

theorem Action.not_reads_nop {l : LocalId} : ¬ Action.nop.Reads l := by
  simp [Reads, uses, operands, value?, phiArgs]

namespace Flow

variable {f : Flow} {l : LocalId} {position next : Nat}

/-- An edge over which a local keeps its value: a normal edge out of a statement that does not define
it, or an exceptional edge. -/
def Keeps (f : Flow) (l : LocalId) (position next : Nat) : Prop :=
  (next ∈ f.succsOf position ∧ (f.action position).defines? ≠ some l) ∨ next ∈ f.exSuccsOf position

instance : Decidable (f.Keeps l position next) := inferInstanceAs (Decidable (_ ∨ _))

/-- A path on which a local keeps its value leads to a statement that reads it. -/
def ReadAhead (f : Flow) (l : LocalId) (position : Nat) : Prop :=
  ∃ goal, Relation.ReflTransGen (f.Keeps l) position goal ∧ (f.action goal).Reads l

theorem ReadAhead.here (reads : (f.action position).Reads l) : f.ReadAhead l position :=
  ⟨position, .refl, reads⟩

theorem ReadAhead.back (keeps : f.Keeps l position next) (ahead : f.ReadAhead l next) :
    f.ReadAhead l position := by
  obtain ⟨goal, path, reads⟩ := ahead
  exact ⟨goal, path.head keeps, reads⟩

end Flow

/-! ## Nothing else is entered -/

namespace Liveness

/-- A table enters locals only where they are read ahead. -/
structure Sound (f : Flow) (live : Liveness) : Prop where
  before : ∀ position l, Holds live.before position l → f.ReadAhead l position
  after : ∀ position l, Holds live.after position l →
    ∃ next ∈ f.succsOf position ++ f.exSuccsOf position, f.ReadAhead l next

section Sound

variable {f : Flow} {locals position : Nat} {live : Liveness}

theorem Sound.update (sound : live.Sound f) (bounded : live.Bounded f locals)
    (inside : position < f.size) : (Liveness.update f live position).Sound f := by
  have after : ∀ other l, Holds (Liveness.update f live position).after other l →
      ∃ next ∈ f.succsOf other ++ f.exSuccsOf other, f.ReadAhead l next := by
    intro other l here
    rcases (holds_after_update bounded inside other l).mp here with old | ⟨rfl, next, edge, there⟩
    · exact sound.after other l old
    · exact ⟨next, edge, sound.before next l there⟩
  constructor
  · intro other l here
    rcases (holds_before_update bounded inside other l).mp here with
      old | ⟨rfl, ⟨behind, other⟩ | reads | ⟨handler, edge, there⟩⟩
    · exact sound.before other l old
    · obtain ⟨next, edge, ahead⟩ := after _ l behind
      rcases List.mem_append.mp edge with normal | thrown
      · exact ahead.back (.inl ⟨normal, other⟩)
      · exact ahead.back (.inr thrown)
    · exact .here (Action.mem_reads.mp reads)
    · exact (sound.before handler l there).back (.inr edge)
  · exact after

section

variable (reads : ∀ position id, (f.action position).reads.mem id = true → id < locals)

include reads

theorem Sound.updates {positions : List Nat} (inside : ∀ position ∈ positions, position < f.size)
    (sound : live.Sound f) (bounded : live.Bounded f locals) :
    (positions.foldl (Liveness.update f) live).Sound f := by
  induction positions generalizing live with
  | nil => exact sound
  | cons first positions ih =>
    have here := inside first List.mem_cons_self
    apply ih
    · exact fun position member => inside position (.tail _ member)
    · exact sound.update bounded here
    · exact bounded.update (reads first) here

/-- However many rounds there are, only what is read ahead is entered. -/
theorem Sound.settle (fuel : Nat) (sound : live.Sound f) (bounded : live.Bounded f locals) :
    (Liveness.settle f fuel live).Sound f := by
  induction fuel generalizing live with
  | zero => exact sound
  | succ fuel ih =>
    have inside : ∀ position ∈ (List.range f.size).reverse, position < f.size := by simp
    by_cases same : round f live = live
    · simpa only [Liveness.settle, if_pos same] using sound
    · simp only [Liveness.settle, if_neg same]
      apply ih
      · exact sound.updates reads inside bounded
      · exact (updates_grow reads _ inside live bounded).1

end

theorem not_holds_replicate {size : Nat} {l : LocalId} :
    ¬ Holds (Array.replicate size .empty) position l := by
  intro here
  simp [Holds, Array.getElem?_replicate] at here
  split at here <;> simp at here

theorem sound_ofFlow (reads : ∀ position id, (f.action position).reads.mem id = true → id < locals) :
    (ofFlow f locals).Sound f := by
  apply Sound.settle reads
  · constructor
    · exact fun _ _ here => absurd here not_holds_replicate
    · exact fun _ _ here => absurd here not_holds_replicate
  · constructor
    · exact ⟨by simp, fun _ _ here => absurd here not_holds_replicate⟩
    · exact ⟨by simp, fun _ _ here => absurd here not_holds_replicate⟩

end Sound

/-! ## Everything that is read ahead is entered -/

section Method

variable {m : Method} {position : Nat} {l : LocalId} {live : Liveness}

theorem lt_size_of_reads (reads : ((Flow.ofMethod m).action position).Reads l) :
    position < (Flow.ofMethod m).size := by
  rw [Flow.action_ofMethod] at reads
  rw [Flow.size_ofMethod]
  by_contra outside
  have nothing : m.actions[position]? = none := by simpa [Method.actions] using outside
  rw [nothing] at reads
  exact Action.not_reads_nop reads

theorem Solves.holds_of_readAhead (solves : Solves (Flow.ofMethod m) live)
    (ahead : (Flow.ofMethod m).ReadAhead l position) : Holds live.before position l := by
  obtain ⟨goal, path, reads⟩ := ahead
  -- The induction goes from the end of the path to its beginning, as the analysis does.
  induction path using Relation.ReflTransGen.head_induction_on with
  | refl => exact solves.read goal (lt_size_of_reads reads) l (Action.mem_reads.mpr reads)
  | head keeps _ there =>
    rcases keeps with ⟨normal, other⟩ | thrown
    · have inside := Flow.lt_size_of_edge (.inl normal)
      exact solves.kept _ inside l (solves.next _ inside _ normal l there) other
    · exact solves.thrown _ (Flow.lt_size_of_edge (.inr thrown)) _ thrown l there

theorem holds_after_of_thrown
    (reads : ∀ position id, ((Flow.ofMethod m).action position).reads.mem id = true →
      id < m.locals.size) {handler : Nat}
    (thrown : handler ∈ (Flow.ofMethod m).exSuccsOf position)
    (there : Holds (ofFlow (Flow.ofMethod m) m.locals.size).before handler l) :
    Holds (ofFlow (Flow.ofMethod m) m.locals.size).after position l := by
  have inside := Flow.lt_size_of_edge (.inr thrown)
  obtain ⟨bounded, fixed⟩ := update_ofFlow reads
  have now := (holds_after_update bounded inside position l).mpr
    (.inr ⟨rfl, handler, List.mem_append_right _ thrown, there⟩)
  rwa [fixed position inside] at now

end Method

/-- The analysis is exact. A local is live before a position just when it is read ahead, and live after
a position just when it is live before a successor, be it the normal one or a handler. -/
theorem live_iff_readAhead (m : Method)
    (known : ∀ a ∈ m.actions, ∀ l, a.Reads l → l < m.locals.size) (position : Nat) (l : LocalId) :
    (Holds (ofFlow (Flow.ofMethod m) m.locals.size).before position l ↔
        (Flow.ofMethod m).ReadAhead l position) ∧
      (Holds (ofFlow (Flow.ofMethod m) m.locals.size).after position l ↔
        ∃ next ∈ (Flow.ofMethod m).succsOf position ++ (Flow.ofMethod m).exSuccsOf position,
          Holds (ofFlow (Flow.ofMethod m) m.locals.size).before next l) := by
  have solves := solves_ofMethod fun a member l reads => known a member l (Action.mem_reads.mp reads)
  have reads : ∀ position l, ((Flow.ofMethod m).action position).reads.mem l = true →
      l < m.locals.size := by
    intro position l reads
    rcases Flow.action_mem_or m position with member | nothing
    · exact known _ member l (Action.mem_reads.mp reads)
    · exact absurd (Action.mem_reads.mp (nothing ▸ reads)) Action.not_reads_nop
  have sound := sound_ofFlow reads
  refine ⟨⟨sound.before position l, solves.holds_of_readAhead⟩, ?_, ?_⟩
  · intro here
    obtain ⟨next, edge, ahead⟩ := sound.after position l here
    exact ⟨next, edge, solves.holds_of_readAhead ahead⟩
  · rintro ⟨next, edge, there⟩
    rcases List.mem_append.mp edge with normal | thrown
    · exact solves.next position (Flow.lt_size_of_edge (.inl normal)) next normal l there
    · exact holds_after_of_thrown reads thrown there

/-- Tries to set a local anew, and gives its value before when that fails. -/
def retrying : Method :=
  { owner := ∅, name := ∅, desc := ∅, access := default, params := [], result := ∅
    locals := Array.replicate 2 { type := .int }
    traps := [⟨.number 0, .number 1, .number 2, ∅⟩]
    stmts := #[
      ⟨.identity 0 (.leaf (.param 0)), none⟩,
      ⟨.label (.number 0), none⟩,
      ⟨.assign 0 (.leaf (.newArray ∅)), none⟩,
      ⟨.label (.number 1), none⟩,
      ⟨.return (some (.read 0)), none⟩,
      ⟨.label (.number 2), none⟩,
      ⟨.identity 1 (.leaf (.caught .int ∅)), none⟩,
      ⟨.return (some (.read 0)), none⟩]
    order := #[0, 1, 2, 3, 4, 5, 6, 7]
    placed := #[some 1, some 3, some 5] }

/-- The local is live before the statement that sets it, since the handler reads it. -/
theorem live_iff_readAhead_retrying :
    (∀ a ∈ retrying.actions, ∀ l, a.Reads l → l < retrying.locals.size) ∧
      Holds (ofFlow (Flow.ofMethod retrying) retrying.locals.size).before 2 0 := by
  have bounds : ∀ a ∈ retrying.actions, (∀ l ∈ a.uses, l < retrying.locals.size) ∧
        ∀ arg ∈ a.phiArgs, arg.value < retrying.locals.size := by decide
  have known : ∀ a ∈ retrying.actions, ∀ l, a.Reads l → l < retrying.locals.size := by
    rintro a member l (read | ⟨arg, listed, rfl⟩)
    · exact (bounds a member).1 l read
    · exact (bounds a member).2 arg listed
  have thrown : (Flow.ofMethod retrying).Keeps 0 2 5 := by with_unfolding_all decide
  have enters : (Flow.ofMethod retrying).Keeps 0 5 6 := by decide
  have receives : (Flow.ofMethod retrying).Keeps 0 6 7 := by decide
  have ahead : (Flow.ofMethod retrying).ReadAhead 0 2 :=
    ⟨7, ((Relation.ReflTransGen.single thrown).tail enters).tail receives, by decide⟩
  exact ⟨known, (live_iff_readAhead retrying known 2 0).1.mpr ahead⟩

end Liveness

end DexLift.Ir
