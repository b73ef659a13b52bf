import DexLift.Ir.Liveness
import DexLift.Failure

/-!
# Joins as copies

A join becomes copies through a local of its own: every way in copies its
operand into that local where control leaves for the join, and the join copies
the local out. The receipt of a caught exception moves to the front of its
block, where the exception is at hand.
-/

namespace DexLift.Ir.Method

def copyOperand (table : EdgeTable) (header : Label) (target through : LocalId) (m : Method)
    (a : PhiArg) : Outcome Method :=
  let copy : Stmt := { action := .assign through (.read a.value) }
  match table.exit? m a.pred header a.exceptional with
  | some (.before id) => .ok (m.addBefore id copy)
  | some (.after id) => .ok (m.addAfter id copy)
  | none =>
    let number : Int := match a.pred with
      | .nowhere => -1
      | .number index => index
    Outcome.failWith .brokenPhi
      ("a" ++ Text.ofNat target ++ " from label " ++ Text.ofInt number)

def replaceJoin (table : EdgeTable) (m : Method) (place : StmtId × Label) : Outcome Method :=
  let (id, header) := place
  match m.action id with
  | .phi target args => do
    let (through, m) := m.newLocal (m.localType target)
    let m ← args.foldlM (copyOperand table header target through) m
    let (fresh, m) := m.newStmt { action := .assign target (.read through) }
    return m.replace id fresh
  | _ => .ok m

/-- Moves the receipt of an exception right behind the label in front of it. -/
def hoistCaught (m : Method) (id : StmtId) : Method :=
  if !(m.action id).isCaught then m
  else
    match (m.inFront id).find? fun other => (m.action other).isLabel with
    | some place =>
      if (m.onward place).tail.head? = some id then m else (m.remove id).insertAfter place id
    | none => m

def replaceJoins (m : Method) : Outcome Method := do
  let places := m.order.toList.zip m.blockLabels
  let m ← places.foldlM (replaceJoin (EdgeTable.ofMethod m)) m
  return m.order.foldl hoistCaught m

end Method

/-!
## Slots of locals

The receiver and the parameters keep the slots they arrive in. Every other local
takes the slot of a local it is copied from or to, when that fits, and else the
lowest slot that fits. A slot fits when no local that holds it is needed at the
same time, and, unless slots are reused freely, when it only ever holds values
of one kind.
-/

/-- Which locals are needed where another is defined, and which are copies of one another. -/
structure Neighbours where
  conflicts : Array LocalSet
  partners : Array (List LocalId)
  /-- The locals in the order of their first definitions. -/
  defined : List LocalId

namespace Neighbours

def copySource? : Action → Option LocalId
  | .assign _ value => value.local?
  | _ => none

/-- What one position adds to what is known. -/
def note (f : Flow) (live : Liveness) (n : Neighbours) (position : Nat) : Neighbours :=
  let action := f.action position
  match action.defines? with
  | none => n
  | some target =>
    let others := (live.after.getD position .empty).erase target
    match copySource? action with
    | none =>
      { n with
        conflicts := n.conflicts.modify target (·.union others)
        defined := target :: n.defined }
    | some source =>
      { conflicts := n.conflicts.modify target (·.union (others.erase source))
        partners := (n.partners.modify target (· ++ [source])).modify source (· ++ [target])
        defined := target :: n.defined }

def ofMethod (m : Method) : Neighbours :=
  let f := Flow.ofMethod m
  let found := (List.range f.size).foldl (note f (Liveness.ofFlow f m.locals.size))
    { conflicts := Array.replicate m.locals.size .empty
      partners := Array.replicate m.locals.size []
      defined := [] }
  { found with defined := found.defined.reverse.eraseDups }

/-- Whether two locals are needed at the same time. -/
def conflict (n : Neighbours) (first second : LocalId) : Bool :=
  (n.conflicts.getD first .empty).mem second || (n.conflicts.getD second .empty).mem first

end Neighbours

/-- What the slots hold: the locals placed in each and the kind each was first used for. -/
structure SlotTable where
  owners : Array (List LocalId) := #[]
  kinds : Array Kind := #[]

namespace SlotTable

def span (slot : Nat) (kind : Kind) : List Nat := List.range' slot kind.slots

def fits (table : SlotTable) (n : Neighbours) (reuse : Bool) (id : LocalId) (kind : Kind)
    (slot : Nat) : Bool :=
  (span slot kind).all fun k =>
    let held := table.kinds.getD k .bottom
    (reuse || held == .bottom || held == kind) &&
      (table.owners.getD k []).all fun owner => !n.conflict id owner

def occupyOne (id : LocalId) (kind : Kind) (table : SlotTable) (k : Nat) : SlotTable :=
  let missing := k + 1 - table.owners.size
  let owners := table.owners ++ Array.replicate missing []
  let kinds := table.kinds ++ Array.replicate missing .bottom
  { owners := owners.modify k (· ++ [id])
    kinds := kinds.modify k fun held => if held = .bottom then kind else held }

def occupy (table : SlotTable) (id : LocalId) (kind : Kind) (slot : Nat) : SlotTable :=
  (span slot kind).foldl (occupyOne id kind) table

/-- The first slot that fits, from one on. Beyond the table every slot does. -/
def firstFit (table : SlotTable) (n : Neighbours) (reuse : Bool) (id : LocalId) (kind : Kind) :
    (fuel slot : Nat) → Nat
  | 0, slot => slot
  | fuel + 1, slot =>
    if table.fits n reuse id kind slot then slot
    else table.firstFit n reuse id kind fuel (slot + 1)

end SlotTable

namespace Method

/-- The slot of the receiver and, by index, of the parameters. -/
def paramSlots (m : Method) : List Nat :=
  let rec place (slot : Nat) : List Text → List Nat
    | [] => []
    | param :: rest => slot :: place (slot + (Kind.ofDesc param).slots) rest
  place (if m.isStatic then 0 else 1) m.params

def placeAt (state : Method × SlotTable) (id : LocalId) (slot : Nat) : Method × SlotTable :=
  let (m, table) := state
  ({ m with locals := m.locals.modify id fun l => { l with slot := some slot } },
   table.occupy id (m.localType id).kind slot)

/-- The slot of a local: that of a partner when it fits, else the first that does. -/
def chooseSlot (m : Method) (table : SlotTable) (n : Neighbours) (reuse : Bool) (id : LocalId) :
    Nat :=
  let kind := (m.localType id).kind
  let near := ((n.partners.getD id []).filterMap fun p => (m.local_ p).slot).find?
    (table.fits n reuse id kind)
  near.getD (table.firstFit n reuse id kind table.owners.size 0)

/-- The slot what a statement names arrives in. -/
def arrival? (slots : List Nat) : Action → Option (LocalId × Nat)
  | .identity target (.node .this _) => some (target, 0)
  | .identity target (.node (.param index) _) => some (target, slots.getD index 0)
  | _ => none

def placeNext (n : Neighbours) (reuse : Bool) (state : Method × SlotTable) (id : LocalId) :
    Method × SlotTable :=
  if (state.1.local_ id).slot.isSome then state
  else placeAt state id (state.1.chooseSlot state.2 n reuse id)

def assignSlots (m : Method) (reuse : Bool) : Method :=
  let n := Neighbours.ofMethod m
  let m := { m with locals := m.locals.map fun l => { l with slot := none } }
  let slots := m.paramSlots
  let start : Method × SlotTable := (m, {})
  let placed := (m.actions.filterMap fun action => arrival? slots action).foldl
    (fun state (id, slot) => placeAt state id slot) start
  (n.defined.foldl (placeNext n reuse) placed).1

end DexLift.Ir.Method
