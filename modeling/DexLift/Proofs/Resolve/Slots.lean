import DexLift.Resolve.Slots
import DexLift.Proofs.Ir.Liveness
import Mathlib.Data.List.Pairwise

/-!
# What the placing of locals promises

A local conflicts with every other local that is live where it is defined, except
the source of a copy. The table of slots knows the owners of every slot, so a
local that is placed where it fits takes no slot of a local it conflicts with. The
receiver and the parameters are placed without a test; the slots they arrive in are
apart anyway. Main statement: `Method.slotted_assignSlots`.
-/

namespace DexLift.Ir

open List

/-! ## Conflicts -/

namespace Neighbours

variable {sets : Array LocalSet} {added : LocalSet} {at_ : LocalId}

section Note

variable {f : Flow} {live : Liveness} {n : Neighbours} {position : Nat} {target other : LocalId}

theorem holds_modify_union (inside : target < sets.size) :
    Holds (sets.modify target (·.union added)) at_ other ↔
      Holds sets at_ other ∨ (at_ = target ∧ added.mem other = true) := by
  by_cases same : at_ = target
  · subst same
    simp [Holds, Array.getElem_modify, inside]
  · simp [Holds, Array.getElem?_modify, same, Ne.symm same]

theorem holds_modify_of_holds (here : Holds sets at_ other) :
    Holds (sets.modify target (·.union added)) at_ other := by
  by_cases inside : target < sets.size
  · exact (holds_modify_union inside).mpr (.inl here)
  · have different : target ≠ at_ := by
      rintro rfl
      exact inside here.lt
    simpa [Holds, Array.getElem?_modify, different] using here

theorem size_note : (note f live n position).conflicts.size = n.conflicts.size := by
  simp only [note]
  split
  · rfl
  · split <;> simp

theorem note_keeps :
    (∀ first second, Holds n.conflicts first second →
      Holds (note f live n position).conflicts first second) ∧
    ∀ id ∈ n.defined, id ∈ (note f live n position).defined := by
  simp only [note]
  split
  · exact ⟨fun _ _ => id, fun _ => id⟩
  · split
    · exact ⟨fun _ _ => holds_modify_of_holds, fun _ => mem_cons_of_mem _⟩
    · exact ⟨fun _ _ => holds_modify_of_holds, fun _ => mem_cons_of_mem _⟩

/-- A position that defines a local notes its conflicts with what is live afterwards, the source of
a copy excepted, and notes the local itself. -/
theorem note_defines (live : Liveness) (n : Neighbours) (other : LocalId)
    (defines : (f.action position).defines? = some target) :
    target ∈ (note f live n position).defined ∧
      (target < n.conflicts.size → Holds live.after position other → other ≠ target →
        copySource? (f.action position) ≠ some other →
          Holds (note f live n position).conflicts target other) := by
  unfold note
  simp only [defines]
  cases copied : copySource? (f.action position) with
  | none =>
    refine ⟨by simp, ?_⟩
    intro inside needed different _
    refine (holds_modify_union inside).mpr (.inr ⟨rfl, ?_⟩)
    simpa [Holds, Ne.symm different] using needed
  | some source =>
    refine ⟨by simp, ?_⟩
    intro inside needed different notCopied
    refine (holds_modify_union inside).mpr (.inr ⟨rfl, ?_⟩)
    have otherSource : source ≠ other := fun same => notCopied (congrArg some same)
    simpa [Holds, Ne.symm different, otherSource] using needed

theorem foldl_note (other : LocalId) {positions : List Nat} (member : position ∈ positions)
    (defines : (f.action position).defines? = some target) :
    target ∈ (positions.foldl (note f live) n).defined ∧
      (target < n.conflicts.size → Holds live.after position other → other ≠ target →
        copySource? (f.action position) ≠ some other →
          Holds (positions.foldl (note f live) n).conflicts target other) := by
  have keeps : ∀ (positions : List Nat) (n : Neighbours),
      (∀ first second, Holds n.conflicts first second →
        Holds (positions.foldl (note f live) n).conflicts first second) ∧
      ∀ id ∈ n.defined, id ∈ (positions.foldl (note f live) n).defined := by
    intro positions
    induction positions with
    | nil => exact fun n => ⟨fun _ _ => id, fun _ => id⟩
    | cons first positions ih =>
      intro n
      obtain ⟨conflicts, defined⟩ := ih (note f live n first)
      exact ⟨fun a b here => conflicts a b (note_keeps.1 a b here),
        fun id here => defined id (note_keeps.2 id here)⟩
  induction positions generalizing n with
  | nil => cases member
  | cons first positions ih =>
    rcases mem_cons.mp member with rfl | later
    · obtain ⟨noted, conflicts⟩ := note_defines live n other defines
      obtain ⟨keepsConflicts, keepsDefined⟩ := keeps positions (note f live n position)
      exact ⟨keepsDefined target noted, fun inside needed different notCopied =>
        keepsConflicts target other (conflicts inside needed different notCopied)⟩
    · obtain ⟨noted, conflicts⟩ := ih (n := note f live n first) later
      exact ⟨noted, fun inside => conflicts (by rwa [size_note])⟩

end Note

theorem conflict_comm (n : Neighbours) (first second : LocalId) :
    n.conflict first second = n.conflict second first := by
  rw [conflict, conflict, Bool.or_comm]

variable {m : Method} {position : Nat} {target other : LocalId}

section

variable (defines : ((Flow.ofMethod m).action position).defines? = some target)
  (inside : position < (Flow.ofMethod m).size)

include defines inside

/-- A local conflicts with every other local that is live after a definition of it, unless that
definition is a copy of the other. -/
theorem conflict_of_live (known : target < m.locals.size)
    (needed : Holds (Liveness.ofFlow (Flow.ofMethod m) m.locals.size).after position other)
    (different : other ≠ target)
    (notCopied : copySource? ((Flow.ofMethod m).action position) ≠ some other) :
    (ofMethod m).conflict target other = true := by
  rw [ofMethod, conflict, Bool.or_eq_true]
  exact .inl ((foldl_note other (mem_range.mpr inside) defines).2 (by simpa using known) needed
    different notCopied)

theorem mem_defined : target ∈ (ofMethod m).defined := by
  rw [ofMethod]
  simp only [mem_eraseDups, mem_reverse]
  exact (foldl_note target (mem_range.mpr inside) defines).1

end

end Neighbours

/-! ## The table of slots -/

namespace SlotTable

variable {table : SlotTable} {n : Neighbours} {reuse : Bool} {id owner : LocalId} {kind : Kind}
  {slot k : Nat}

theorem mem_span : k ∈ span slot kind ↔ slot ≤ k ∧ k < slot + kind.slots := by
  simp [span, mem_range'_1]

theorem not_conflict_of_fits (fits : table.fits n reuse id kind slot = true)
    (inSpan : k ∈ span slot kind) (owns : owner ∈ table.owners.getD k []) :
    n.conflict id owner = false := by
  have here := all_eq_true.mp fits k inSpan
  simp only [Bool.and_eq_true, all_eq_true, Bool.not_eq_true'] at here
  exact here.2 owner owns

theorem mem_owners_occupyOne {at_ : Nat} :
    owner ∈ (occupyOne id kind table k).owners.getD at_ [] ↔
      owner ∈ table.owners.getD at_ [] ∨ (owner = id ∧ at_ = k) := by
  have padded : ∀ j, (table.owners ++ Array.replicate (k + 1 - table.owners.size) []).getD j [] =
      table.owners.getD j [] := by
    intro j
    by_cases old : j < table.owners.size
    · simp [Array.getElem?_append, old]
    · by_cases new : j - table.owners.size < k + 1 - table.owners.size
      · simp [Array.getElem?_append, old, new]
      · simp [Array.getElem?_append, old, new]
  have inside : k < (table.owners ++ Array.replicate (k + 1 - table.owners.size) []).size := by
    simp
    omega
  rw [← padded at_, occupyOne]
  generalize table.owners ++ Array.replicate (k + 1 - table.owners.size) [] = owners at inside ⊢
  by_cases same : at_ = k
  · subst same
    simp [Array.getElem_modify, inside]
  · simp [Array.getElem?_modify, same, Ne.symm same]

theorem size_occupyOne (even : table.kinds.size = table.owners.size) :
    (occupyOne id kind table k).kinds.size = (occupyOne id kind table k).owners.size := by
  simp [occupyOne, even]

theorem mem_owners_occupy {at_ : Nat} :
    owner ∈ (table.occupy id kind slot).owners.getD at_ [] ↔
      owner ∈ table.owners.getD at_ [] ∨ (owner = id ∧ at_ ∈ span slot kind) := by
  unfold occupy
  generalize span slot kind = slots
  induction slots generalizing table with
  | nil => simp
  | cons first slots ih =>
    rw [foldl_cons, ih, mem_owners_occupyOne, mem_cons, or_assoc, ← and_or_left]

section

variable (even : table.kinds.size = table.owners.size)

include even

theorem size_occupy :
    (table.occupy id kind slot).kinds.size = (table.occupy id kind slot).owners.size := by
  unfold occupy
  generalize span slot kind = slots
  induction slots generalizing table with
  | nil => exact even
  | cons first slots ih => exact ih (size_occupyOne even)

theorem fits_of_size_le
    (behind : table.owners.size ≤ slot) : table.fits n reuse id kind slot = true := by
  refine all_eq_true.mpr ?_
  intro k inSpan
  have outside : table.owners.size ≤ k := le_trans behind (mem_span.mp inSpan).1
  have noKind : table.kinds.getD k .bottom = .bottom := by
    simp [even ▸ outside]
  have noOwner : table.owners.getD k [] = [] := by simp [outside]
  rw [noKind, noOwner]
  simp

theorem fits_firstFit (fuel : Nat) (enough : table.owners.size ≤ slot + fuel) :
    table.fits n reuse id kind (table.firstFit n reuse id kind fuel slot) = true := by
  induction fuel generalizing slot with
  | zero => exact fits_of_size_le even enough
  | succ fuel ih =>
    rw [firstFit]
    split
    next fits => exact fits
    · exact ih (by omega)

end

end SlotTable

/-! ## Placing one local after the other -/

namespace Method

open SlotTable (span mem_span)

/-- The slots of a local; none before it is placed. -/
def spanOf (m : Method) (id : LocalId) : List Nat :=
  match (m.local_ id).slot with
  | some slot => span slot (m.localType id).kind
  | none => []

/-- Two methods that differ in the slots of their locals only. -/
structure SameButSlots (m n : Method) : Prop where
  rest : ∃ locals, n = { m with locals }
  size_eq : n.locals.size = m.locals.size
  type_eq : ∀ id, n.localType id = m.localType id

theorem SameButSlots.refl (m : Method) : SameButSlots m m := ⟨⟨m.locals, rfl⟩, rfl, fun _ => rfl⟩

theorem SameButSlots.placeAt {m n : Method} (same : SameButSlots m n) (table : SlotTable)
    (id : LocalId) (slot : Nat) : SameButSlots m (placeAt (n, table) id slot).1 := by
  obtain ⟨⟨locals, rfl⟩, size, types⟩ := same
  refine ⟨⟨_, rfl⟩, by simpa [Method.placeAt] using size, ?_⟩
  intro other
  rw [← types other]
  simp only [Method.placeAt, localType, local_, getD_modify]
  split <;> rfl

theorem slot_placeAt (m : Method) (table : SlotTable) (id other : LocalId) (slot : Nat) :
    ((placeAt (m, table) id slot).1.local_ other).slot =
      if other = id ∧ id < m.locals.size then some slot else (m.local_ other).slot := by
  simp only [placeAt, local_, getD_modify]
  split <;> rfl

theorem spanOf_placeAt (m : Method) (table : SlotTable) (id other : LocalId) (slot : Nat) :
    (placeAt (m, table) id slot).1.spanOf other =
      if other = id ∧ id < m.locals.size then span slot (m.localType id).kind
      else m.spanOf other := by
  have types := ((SameButSlots.refl m).placeAt table id slot).type_eq other
  rw [spanOf, slot_placeAt, types]
  by_cases here : other = id ∧ id < m.locals.size
  · rw [if_pos here, if_pos here, here.1]
  · rw [if_neg here, if_neg here, spanOf]

/-- What holds while locals are placed: the table knows the owners, and locals that conflict share
no slot. -/
structure Placing (m : Method) (n : Neighbours) (state : Method × SlotTable) : Prop where
  same : SameButSlots m state.1
  even : state.2.kinds.size = state.2.owners.size
  owned : ∀ id, ∀ k ∈ state.1.spanOf id, id ∈ state.2.owners.getD k []
  apart : ∀ first second, first ≠ second → n.conflict first second = true →
    Disjoint (state.1.spanOf first) (state.1.spanOf second)

variable {m : Method} {n : Neighbours} {state : Method × SlotTable}

theorem Placing.placeAt (placing : Placing m n state) {id : LocalId} {slot : Nat}
    (free : ∀ other, other ≠ id → n.conflict id other = true →
      Disjoint (span slot (m.localType id).kind) (state.1.spanOf other)) :
    Placing m n (placeAt state id slot) := by
  obtain ⟨current, table⟩ := state
  have types := placing.same.type_eq id
  refine ⟨placing.same.placeAt table id slot, SlotTable.size_occupy placing.even, ?_, ?_⟩
  · intro other k inSpan
    rw [spanOf_placeAt] at inSpan
    refine SlotTable.mem_owners_occupy.mpr ?_
    split at inSpan
    next here => exact .inr ⟨here.1, inSpan⟩
    next => exact .inl (placing.owned other k inSpan)
  · intro first second different conflict
    rw [spanOf_placeAt, spanOf_placeAt]
    split
    next isFirst =>
      rw [if_neg fun isSecond => different (isFirst.1.trans isSecond.1.symm), types]
      obtain ⟨rfl, -⟩ := isFirst
      exact free second (Ne.symm different) conflict
    next =>
      split
      next isSecond =>
        obtain ⟨rfl, -⟩ := isSecond
        rw [types]
        exact (free first different (n.conflict_comm second first ▸ conflict)).symm
      next => exact placing.apart first second different conflict

section

variable (placing : Placing m n state) (reuse : Bool)

include placing

theorem fits_chooseSlot (id : LocalId) :
    state.2.fits n reuse id (m.localType id).kind
      (state.1.chooseSlot state.2 n reuse id) = true := by
  simp only [chooseSlot, placing.same.type_eq id]
  cases near : List.find? (state.2.fits n reuse id (m.localType id).kind)
      ((n.partners.getD id []).filterMap fun p => (state.1.local_ p).slot) with
  | some slot => exact List.find?_some near
  | none => exact SlotTable.fits_firstFit placing.even _ (Nat.le_add_left _ _)

theorem Placing.placeNext (id : LocalId) : Placing m n (placeNext n reuse state id) := by
  unfold Method.placeNext
  split
  · exact placing
  · refine placing.placeAt ?_
    intro other _ conflict k inSpan inOther
    have clear := SlotTable.not_conflict_of_fits (fits_chooseSlot placing reuse id) inSpan
      (placing.owned other k inOther)
    rw [conflict] at clear
    cases clear

theorem slot_placeNext (id other : LocalId) :
    (∀ slot, (state.1.local_ other).slot = some slot →
      ((placeNext n reuse state id).1.local_ other).slot = some slot) ∧
    (id < m.locals.size → ((placeNext n reuse state id).1.local_ id).slot.isSome = true) := by
  unfold placeNext
  split
  next has => exact ⟨fun _ here => here, fun _ => has⟩
  next lacks =>
    obtain ⟨current, table⟩ := state
    constructor
    · intro slot here
      rw [slot_placeAt, if_neg, here]
      rintro ⟨rfl, -⟩
      rw [here] at lacks
      exact lacks rfl
    · intro known
      rw [slot_placeAt, if_pos ⟨rfl, placing.same.size_eq ▸ known⟩]
      rfl

theorem Placing.placeAll (ids : List LocalId) :
    Placing m n (ids.foldl (Method.placeNext n reuse) state) ∧
      (∀ id slot, (state.1.local_ id).slot = some slot →
        ((ids.foldl (Method.placeNext n reuse) state).1.local_ id).slot = some slot) ∧
      ∀ id ∈ ids, id < m.locals.size →
        ((ids.foldl (Method.placeNext n reuse) state).1.local_ id).slot.isSome = true := by
  induction ids generalizing state with
  | nil => exact ⟨placing, fun _ _ here => here, fun _ none => absurd none (by simp)⟩
  | cons first ids ih =>
    obtain ⟨placed, keeps, gets⟩ := ih (placing.placeNext reuse first)
    refine ⟨placed, ?_, ?_⟩
    · intro id slot here
      exact keeps id slot ((slot_placeNext placing reuse first id).1 slot here)
    · intro id member known
      rcases mem_cons.mp member with rfl | later
      · obtain ⟨slot, here⟩ :=
          Option.isSome_iff_exists.mp ((slot_placeNext placing reuse id id).2 known)
        rw [foldl_cons, keeps id slot here]
        rfl
      · exact gets id later known

end

/-! ## The receiver and the parameters -/

/-- The locals that stand for the receiver and the parameters, with the slots these arrive in. -/
def arrivals (m : Method) : List (LocalId × Nat) := m.actions.filterMap (arrival? m.paramSlots)

def arrivalSpan (m : Method) (arrival : LocalId × Nat) : List Nat :=
  span arrival.2 (m.localType arrival.1).kind

/-- What arrives goes into locals of its own and takes slots of its own. -/
def ArrivesApart (m : Method) : Prop :=
  m.arrivals.Pairwise fun first second =>
    first.1 ≠ second.1 ∧ Disjoint (m.arrivalSpan first) (m.arrivalSpan second)

theorem Placing.placeArrivals (placing : Placing m n state) (arrivals : List (LocalId × Nat))
    (apart : arrivals.Pairwise fun first second =>
      first.1 ≠ second.1 ∧ List.Disjoint (m.arrivalSpan first) (m.arrivalSpan second))
    (free : ∀ arrival ∈ arrivals, ∀ other, other ≠ arrival.1 →
      List.Disjoint (m.arrivalSpan arrival) (state.1.spanOf other)) :
    Placing m n (arrivals.foldl (fun state (id, slot) => Method.placeAt state id slot) state) ∧
      (∀ id, (∀ arrival ∈ arrivals, arrival.1 ≠ id) →
        ((arrivals.foldl (fun state (id, slot) => Method.placeAt state id slot) state).1.local_
          id).slot = (state.1.local_ id).slot) ∧
      ∀ arrival ∈ arrivals, arrival.1 < m.locals.size →
        ((arrivals.foldl (fun state (id, slot) => Method.placeAt state id slot) state).1.local_
          arrival.1).slot = some arrival.2 := by
  induction arrivals generalizing state with
  | nil => exact ⟨placing, fun _ _ => rfl, fun _ none => absurd none (by simp)⟩
  | cons first arrivals ih =>
    obtain ⟨id, slot⟩ := first
    obtain ⟨apartFirst, apartRest⟩ := pairwise_cons.mp apart
    have size := placing.same.size_eq
    have types := placing.same.type_eq
    have next : Placing m n (Method.placeAt state id slot) := placing.placeAt
      fun other different _ => free (id, slot) (by simp) other different
    obtain ⟨current, table⟩ := state
    obtain ⟨placed, keeps, gets⟩ := ih next apartRest (by
      intro arrival later other different
      rw [spanOf_placeAt]
      split
      next here =>
        obtain ⟨rfl, -⟩ := here
        rw [types]
        exact (apartFirst arrival later).2.symm
      next => exact free arrival (by simp [later]) other different)
    refine ⟨placed, ?_, ?_⟩
    · intro other others
      rw [foldl_cons, keeps other fun arrival later => others arrival (by simp [later]),
        slot_placeAt, if_neg]
      rintro ⟨rfl, -⟩
      exact others (other, slot) (by simp) rfl
    · intro arrival member known
      rcases mem_cons.mp member with rfl | later
      · rw [foldl_cons, keeps id fun arrival later => (apartFirst arrival later).1.symm,
          slot_placeAt, if_pos ⟨rfl, size ▸ known⟩]
      · exact gets arrival later known

/-! ## All locals -/

/-- The method before anything is placed. -/
def unplaced (m : Method) : Method :=
  { m with locals := m.locals.map fun l => { l with slot := none } }

theorem slot_unplaced (m : Method) (id : LocalId) : (m.unplaced.local_ id).slot = none := by
  simp only [unplaced, local_, Array.getD_eq_getD_getElem?, Array.getElem?_map]
  cases m.locals[id]? <;> rfl

theorem placing_unplaced (m : Method) (n : Neighbours) : Placing m n (m.unplaced, {}) := by
  have none : ∀ id, m.unplaced.spanOf id = [] := by
    intro id
    rw [spanOf, slot_unplaced]
  refine ⟨⟨⟨_, rfl⟩, by simp [unplaced], ?_⟩, rfl, ?_, ?_⟩
  · intro id
    simp only [unplaced, localType, local_, Array.getD_eq_getD_getElem?, Array.getElem?_map]
    cases m.locals[id]? <;> rfl
  · intro id k inSpan
    rw [none] at inSpan
    cases inSpan
  · intro first second _ _
    rw [none]
    exact disjoint_nil_left _

theorem assignSlots_eq (m : Method) (reuse : Bool) :
    m.assignSlots reuse =
      ((Neighbours.ofMethod m).defined.foldl (placeNext (Neighbours.ofMethod m) reuse)
        (m.arrivals.foldl (fun state (id, slot) => placeAt state id slot) (m.unplaced, {}))).1 :=
  rfl

/-- The slots of a method: locals that conflict share none, every defined local has one, and what
arrives stays where it arrives. -/
structure Slotted (m n : Method) : Prop where
  same : SameButSlots m n
  apart : ∀ first second, first ≠ second → (Neighbours.ofMethod m).conflict first second = true →
    Disjoint (n.spanOf first) (n.spanOf second)
  defined : ∀ id ∈ (Neighbours.ofMethod m).defined, id < m.locals.size →
    (n.local_ id).slot.isSome = true
  arrived : ∀ arrival ∈ m.arrivals, arrival.1 < m.locals.size →
    (n.local_ arrival.1).slot = some arrival.2

theorem slotted_assignSlots (apart : m.ArrivesApart) (reuse : Bool) :
    Slotted m (m.assignSlots reuse) := by
  obtain ⟨placing, -, arrived⟩ := (placing_unplaced m (Neighbours.ofMethod m)).placeArrivals
    m.arrivals apart (by
      intro arrival _ other _
      rw [spanOf, slot_unplaced]
      exact disjoint_nil_right _)
  obtain ⟨placed, keeps, gets⟩ := placing.placeAll reuse (Neighbours.ofMethod m).defined
  rw [assignSlots_eq]
  exact ⟨placed.same, placed.apart, gets, fun arrival member known =>
    keeps arrival.1 arrival.2 (arrived arrival member known)⟩

end Method

end DexLift.Ir
