import DexLift.Ir.Flow

/-!
# Sets of locals

A set of numbers as the bits of one number.
-/

namespace DexLift.Ir

/-- A set of locals: local `i` is in it when bit `i` is set. -/
structure LocalSet where
  bits : Nat
deriving DecidableEq, Inhabited

namespace LocalSet

def empty : LocalSet := ⟨0⟩

def full (n : Nat) : LocalSet := ⟨(1 <<< n) - 1⟩

def mem (s : LocalSet) (id : LocalId) : Bool := s.bits.testBit id

def insert (s : LocalSet) (id : LocalId) : LocalSet := ⟨s.bits ||| (1 <<< id)⟩

def erase (s : LocalSet) (id : LocalId) : LocalSet := ⟨s.bits ^^^ (s.bits &&& (1 <<< id))⟩

def union (s t : LocalSet) : LocalSet := ⟨s.bits ||| t.bits⟩

/-- The elements of both sets. -/
def inter (s t : LocalSet) : LocalSet := ⟨s.bits &&& t.bits⟩

def ofList (ids : List LocalId) : LocalSet := ids.foldl insert empty

/-- The elements below `bound`, in ascending order. -/
def toList (s : LocalSet) (bound : Nat) : List LocalId := (List.range bound).filter s.mem

@[simp] theorem mem_empty (id : LocalId) : empty.mem id = false := by
  simp [empty, mem]

@[simp] theorem mem_insert (s : LocalSet) (added id : LocalId) :
    (s.insert added).mem id = (s.mem id || decide (added = id)) := by
  simp [insert, mem, Nat.testBit_or, Nat.one_shiftLeft, Nat.testBit_two_pow]

@[simp] theorem mem_union (s t : LocalSet) (id : LocalId) :
    (s.union t).mem id = (s.mem id || t.mem id) := by
  simp [union, mem]

@[simp] theorem mem_inter (s t : LocalSet) (id : LocalId) :
    (s.inter t).mem id = (s.mem id && t.mem id) := by
  simp [inter, mem]

/-- The elements of a set without one. -/
@[simp] theorem mem_erase (s : LocalSet) (gone id : LocalId) :
    (s.erase gone).mem id = (s.mem id && !decide (gone = id)) := by
  simp only [erase, mem, Nat.testBit_xor, Nat.testBit_and, Nat.one_shiftLeft, Nat.testBit_two_pow]
  cases s.bits.testBit id <;> cases decide (gone = id) <;> rfl

@[simp] theorem mem_ofList (ids : List LocalId) (id : LocalId) :
    (ofList ids).mem id = true ↔ id ∈ ids := by
  have general : ∀ (s : LocalSet), (ids.foldl insert s).mem id = true ↔ s.mem id = true ∨ id ∈ ids := by
    induction ids with
    | nil => simp
    | cons first rest ih =>
      intro s
      rw [List.foldl_cons, ih]
      rw [mem_insert, List.mem_cons, Bool.or_eq_true, decide_eq_true_eq, or_assoc,
        eq_comm (a := first)]
  rw [ofList, general]
  simp

end LocalSet

/-!
## Which locals matter and which are set

A local is live at a position when some path from there reads it before
defining it. A local is definitely assigned when every path from the entry to
the position defines it. An exceptional edge leaves a statement before its own
definition takes effect. Both are fixed points; every round that changes
something adds to or takes from finitely many sets, which bounds the rounds.
-/

structure Liveness where
  before : Array LocalSet
  after : Array LocalSet
deriving DecidableEq

def unionAt (sets : Array LocalSet) (positions : List Nat) : LocalSet :=
  positions.foldl (fun sum j => sum.union (sets.getD j .empty)) .empty

/-- The locals a statement reads, those of joins included. -/
def Action.reads (action : Action) : LocalSet :=
  .ofList (action.uses ++ action.phiArgs.map PhiArg.value)

namespace Liveness

/-- Brings one position up to date with its successors. -/
def update (f : Flow) (live : Liveness) (position : Nat) : Liveness :=
  let thrown := unionAt live.before (f.exSuccsOf position)
  let out := ((live.after.getD position .empty).union
    (unionAt live.before (f.succsOf position))).union thrown
  let action := f.action position
  let kept := match action.defines? with
    | some target => out.erase target
    | none => out
  let into := ((live.before.getD position .empty).union (kept.union action.reads)).union thrown
  { before := live.before.setIfInBounds position into
    after := live.after.setIfInBounds position out }

/-- One round over all positions, from the last to the first. -/
def round (f : Flow) (live : Liveness) : Liveness :=
  (List.range f.size).reverse.foldl (update f) live

/-- Rounds until nothing changes. -/
def settle (f : Flow) : (fuel : Nat) → Liveness → Liveness
  | 0, live => live
  | fuel + 1, live =>
    let next := round f live
    if next = live then live else settle f fuel next

def ofFlow (f : Flow) (locals : Nat) : Liveness :=
  let none := Array.replicate f.size LocalSet.empty
  settle f (2 * f.size * locals + 1) ⟨none, none⟩

end Liveness

/-- Takes the locals that are not assigned on an edge away from its target. The first position has
no assigned locals whatever leads back to it. -/
def narrow (sets : Array LocalSet) (assigned : LocalSet) (target : Nat) : Array LocalSet :=
  if target = 0 then sets else sets.modify target (·.inter assigned)

def carryAssigned (f : Flow) (sets : Array LocalSet) (position : Nat) : Array LocalSet :=
  let into := sets.getD position .empty
  let out := match (f.action position).defines? with
    | some target => into.insert target
    | none => into
  let sets := (f.succsOf position).foldl (narrow · out) sets
  (f.exSuccsOf position).foldl (narrow · into) sets

/-- Rounds until nothing changes. -/
def settleAssigned (f : Flow) : (fuel : Nat) → Array LocalSet → Array LocalSet
  | 0, sets => sets
  | fuel + 1, sets =>
    let next := (List.range f.size).foldl (carryAssigned f) sets
    if next = sets then sets else settleAssigned f fuel next

/-- The locals that every path from the entry to each position assigns. -/
def definitelyAssigned (f : Flow) (locals : Nat) : Array LocalSet :=
  let start := (Array.replicate f.size (LocalSet.full locals)).setIfInBounds 0 .empty
  settleAssigned f (f.size * locals + 1) start

end DexLift.Ir
