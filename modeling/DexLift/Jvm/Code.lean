import DexLift.Jvm.Assembler

/-!
# Finished code

Labels get addresses when all instructions are there. Jumps are laid out short
and made long until every offset fits. Lengths only grow, so that this ends
after at most as many rounds as there are jumps.
-/

namespace DexLift.Jvm

/-- A row of the exception table; type 0 catches everything. -/
structure ExceptionEntry where
  start : UInt16
  stop : UInt16
  handler : UInt16
  type : UInt16

structure LineNumber where
  pc : UInt16
  line : UInt16

structure Code where
  maxStack : UInt16
  maxLocals : UInt16
  bytecode : List UInt8
  exceptions : List ExceptionEntry := []
  lines : List LineNumber := []
  /-- The encoded stack map, when there is one. -/
  stackMap : Option (List UInt8) := none

/-- Zero bytes between the opcode of a switch at an address and its operands. -/
def switchPadding (pc : Nat) : Nat := (4 - (pc + 1) % 4) % 4

namespace Item

def size (pc : Nat) : Item → Nat
  | bytes data => data.length
  | jump op _ isLong => if !isLong then 3 else if op = .goto then 5 else 8
  | switch isTable keys targets _ =>
    1 + switchPadding pc + if isTable then 12 + 4 * targets.length else 8 + 8 * keys.length

def targets : Item → List CodeLabel
  | bytes _ => []
  | jump _ target _ => [target]
  | switch _ _ targets default => default :: targets

def widen (offset : Int) : Item → Item
  | jump op target isLong => jump op target (isLong || offset < -32768 || offset > 32767)
  | item => item

/-- The bytes of an item at an address; `at_` gives the addresses of labels. A table needs a key. -/
def encode (pc : Nat) (at_ : CodeLabel → Nat) : Item → Outcome (List UInt8)
  | bytes data => .ok data
  | jump op target isLong =>
    let offset : Int := (at_ target : Int) - pc
    if !isLong then .ok (op.code :: u2OfInt offset)
    else if op = .goto then .ok (Opcode.gotoW.code :: u4OfInt offset)
    else .ok (op.invert.code :: u2OfNat 8 ++ Opcode.gotoW.code :: u4OfInt (offset - 3))
  | switch isTable keys targets default =>
    let toward (l : CodeLabel) : List UInt8 := u4OfInt ((at_ l : Int) - pc)
    let padding := List.replicate (switchPadding pc) 0
    if isTable then
      match keys.head?, keys.getLast? with
      | some low, some high =>
        .ok (Opcode.tableswitch.code :: padding ++ toward default ++ u4OfInt low ++ u4OfInt high ++
          targets.flatMap toward)
      | _, _ => Outcome.crash
    else
      .ok (Opcode.lookupswitch.code :: padding ++ toward default ++ u4OfNat keys.length ++
        (keys.zip targets).flatMap fun (key, target) => u4OfInt key ++ toward target)

end Item

/-- The addresses of items from one on, and the address behind the last. -/
def addressesFrom (pc : Nat) : List Item → List Nat
  | [] => [pc]
  | item :: rest => pc :: addressesFrom (pc + item.size pc) rest

def addressOf (labels : Array (Option Nat)) (addresses : Array Nat) (l : CodeLabel) : Nat :=
  addresses.getD ((labels.getD l none).getD 0) 0

/-- The items with jumps made long that are too short for these addresses. -/
def widenAll (labels : Array (Option Nat)) (addresses : Array Nat) (items : List Item) :
    List Item :=
  (items.zip addresses.toList).map fun (item, pc) =>
    match item with
    | .jump _ target _ => item.widen ((addressOf labels addresses target : Int) - pc)
    | _ => item

def longJumps (items : List Item) : Nat :=
  items.countP fun item => match item with
    | .jump _ _ isLong => isLong
    | _ => false

/-- Makes jumps long until all fit. Gives the items and their addresses. -/
def layout (labels : Array (Option Nat)) : (fuel : Nat) → List Item → List Item × Array Nat
  | 0, items => (items, (addressesFrom 0 items).toArray)
  | fuel + 1, items =>
    let addresses := (addressesFrom 0 items).toArray
    let wider := widenAll labels addresses items
    if longJumps wider = longJumps items then (items, addresses) else layout labels fuel wider

namespace Assembler

/-- The first label that is referred to and has no place: among jumps, then among catchers. -/
def strayLabel? (a : Assembler) : Option Text :=
  let isStray (l : CodeLabel) : Bool := (a.labels.getD l none).isNone
  let jumped := (a.items.toList.flatMap Item.targets).find? isStray
  let caught := (a.catchers.toList.flatMap fun c => [c.start, c.stop, c.handler]).find? isStray
  (jumped.map fun l => "label " ++ Text.ofNat l) <|>
    caught.map fun l => "exception label " ++ Text.ofNat l

/-- The rows of the exception table; ranges without code are left out. -/
def exceptionTable (at_ : CodeLabel → Nat) : List Catcher → Intern (List ExceptionEntry)
  | [] => return []
  | c :: rest => do
    if at_ c.start ≥ at_ c.stop then exceptionTable at_ rest
    else
      let type ← if c.type.isEmpty then pure 0 else Pool.class_ c.type
      let entry : ExceptionEntry :=
        { start := UInt16.ofNat (at_ c.start), stop := UInt16.ofNat (at_ c.stop)
          handler := UInt16.ofNat (at_ c.handler), type }
      return entry :: (← exceptionTable at_ rest)

/-- Entries by address, in order. Of entries at one address the last counts, and entries behind the
code do not count. -/
def byAddress {α : Type} (addresses : Array Nat) (stop : Nat) (entries : List (Nat × α)) :
    List (Nat × α) :=
  let step (found : List (Nat × α)) (entry : Nat × α) : List (Nat × α) :=
    let pc := addresses.getD entry.1 0
    if pc ≥ stop then found
    else
      match found with
      | (last, _) :: rest => if last = pc then (pc, entry.2) :: rest else (pc, entry.2) :: found
      | [] => [(pc, entry.2)]
  (entries.foldl step []).reverse

end Assembler

def Asm.finish : Asm Code := do
  let a ← get
  if let some failure := a.failure then throw (.failed failure)
  if let some label := a.strayLabel? then throw (.failed ⟨[.detail label], .unplacedLabel⟩)
  let (items, addresses) := layout a.labels a.items.size a.items.toList
  let stop := addresses.back?.getD 0
  if stop > 65535 then
    throw (.failed ⟨[.detail (Text.ofNat stop ++ " bytes")], .codeTooLarge⟩)
  let at_ := addressOf a.labels addresses
  let pieces ← Asm.lift ((items.zip addresses.toList).mapM fun (item, pc) => item.encode pc at_)
  let exceptions ← Asm.intern (Assembler.exceptionTable at_ a.catchers.toList)
  let lines := (Assembler.byAddress addresses stop a.lines.toList).map fun (pc, line) =>
    ({ pc := UInt16.ofNat pc, line := UInt16.ofNat line } : LineNumber)
  let frames := Assembler.byAddress addresses stop a.frames.toList
  let stackMap ←
    if frames.isEmpty then pure none
    else some <$> Asm.intern (encodeStackMap a.initial frames)
  if let some failure := (← get).pool.failure then throw (.failed failure)
  return {
    maxStack := UInt16.ofNat a.maxStack.toNat
    maxLocals := UInt16.ofNat a.maxLocals
    bytecode := pieces.flatten
    exceptions, lines, stackMap }

/-- Assembles code with a pool. The pool keeps what was added even when there is no code. -/
def Asm.assemble {α : Type} (step : Asm α) (pool : Pool) : Outcome α × Pool :=
  let (outcome, a) := step.run.run { pool }
  (outcome, a.pool)

end DexLift.Jvm
