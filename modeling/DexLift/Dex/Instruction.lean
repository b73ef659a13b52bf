import DexLift.Dex.Opcode
import DexLift.Failure

/-!
# Dalvik instructions

A code item is an array of 16-bit units. Instructions follow one another;
tables of switches and array contents stand between or after them and are
attached to the instructions that point at them. A branch has to lead to the
first unit of an instruction.
-/

namespace DexLift.Dex

/-- A table an instruction points at. -/
inductive Payload where
  /-- Keys of a switch and the absolute addresses they lead to. -/
  | branches (keys : List Int32) (targets : List UInt32)
  /-- Array contents: the element width in bytes and the elements, sign-extended. -/
  | elements (width : Nat) (values : List Int64)
deriving DecidableEq

structure Instruction where
  /-- Offset in code units. -/
  addr : UInt32
  op : Opcode
  /-- Register operands in the order of the encoding. -/
  regs : List UInt16 := []
  /-- Literal operand. -/
  lit : Int64 := 0
  /-- Index of a string, type, field, method or call site. -/
  index : UInt32 := 0
  /-- Index of the prototype of a polymorphic call. -/
  proto : UInt32 := 0
  /-- Absolute address of a branch target or of a payload. -/
  target : UInt32 := 0
  payload : Option Payload := none

namespace Instruction

def size (i : Instruction) : Nat := i.op.format.units

def operandText (i : Instruction) : Text :=
  match i.op.format with
  | .f11n | .f21s | .f21h | .f31i | .f51l | .f22b | .f22s => ", #" ++ Text.ofInt i.lit.toInt
  | .f10t | .f20t | .f30t | .f21t | .f22t | .f31t => ", @" ++ Text.hex i.target.toNat 4
  | .f21c | .f22c | .f31c | .f35c | .f3rc => ", idx@" ++ Text.ofNat i.index.toNat
  | _ => ∅

/-- Address, mnemonic, registers and operand. -/
def text (i : Instruction) : Text :=
  let regs := i.regs.map fun reg => "v" ++ Text.ofNat reg.toNat
  Text.hex i.addr.toNat 4 ++ ": " ++ i.op.name ++ (if regs.isEmpty then "" else " ") ++
    Text.join ", " regs ++ i.operandText

end Instruction

/-- A 16-bit unit read as a signed number. -/
def signed16 (w : UInt16) : Int64 := w.toInt16.toInt64

/-- Two units as one number, the low half first. -/
def pair (low high : UInt16) : UInt32 := low.toUInt32 ||| (high.toUInt32 <<< 16)

/-- The low byte of a unit as a signed number. -/
def signedLow (w : UInt16) : Int64 := w.toUInt8.toInt8.toInt64

def decodeOne (w : Nat → UInt16) (pc : UInt32) (op : Opcode) : Instruction :=
  let a4 := (w 0 >>> 8) &&& 0xf
  let b4 := w 0 >>> 12
  let aa := w 0 >>> 8
  let wide := pair (w 1) (w 2)
  let toward (offset : Int64) : UInt32 := pc + offset.toInt32.toUInt32
  let base : Instruction := { addr := pc, op }
  let few : List UInt16 :=
    [w 2 &&& 0xf, (w 2 >>> 4) &&& 0xf, (w 2 >>> 8) &&& 0xf, w 2 >>> 12, a4].take b4.toNat
  let range : List UInt16 := (List.range aa.toNat).map fun i => w 2 + UInt16.ofNat i
  match op.format with
  | .f10x => base
  | .f12x => { base with regs := [a4, b4] }
  | .f11n => { base with regs := [a4], lit := ((b4 <<< 4).toUInt8.toInt8 >>> 4).toInt64 }
  | .f11x => { base with regs := [aa] }
  | .f10t => { base with target := toward (signedLow aa) }
  | .f20t => { base with target := toward (signed16 (w 1)) }
  | .f22x => { base with regs := [aa, w 1] }
  | .f21t => { base with regs := [aa], target := toward (signed16 (w 1)) }
  | .f21s => { base with regs := [aa], lit := signed16 (w 1) }
  | .f21h =>
    { base with
      regs := [aa]
      lit :=
        if op.code = 0x19 then signed16 (w 1) <<< 48
        else ((w 1).toUInt32 <<< 16).toInt32.toInt64 }
  | .f21c => { base with regs := [aa], index := (w 1).toUInt32 }
  | .f23x => { base with regs := [aa, w 1 &&& 0xff, w 1 >>> 8] }
  | .f22b => { base with regs := [aa, w 1 &&& 0xff], lit := signedLow (w 1 >>> 8) }
  | .f22t => { base with regs := [a4, b4], target := toward (signed16 (w 1)) }
  | .f22s => { base with regs := [a4, b4], lit := signed16 (w 1) }
  | .f22c => { base with regs := [a4, b4], index := (w 1).toUInt32 }
  | .f30t => { base with target := pc + wide }
  | .f32x => { base with regs := [w 1, w 2] }
  | .f31i => { base with regs := [aa], lit := wide.toInt32.toInt64 }
  | .f31t => { base with regs := [aa], target := pc + wide }
  | .f31c => { base with regs := [aa], index := wide }
  | .f35c => { base with regs := few, index := (w 1).toUInt32 }
  | .f45cc => { base with regs := few, index := (w 1).toUInt32, proto := (w 3).toUInt32 }
  | .f3rc => { base with regs := range, index := (w 1).toUInt32 }
  | .f4rcc => { base with regs := range, index := (w 1).toUInt32, proto := (w 3).toUInt32 }
  | .f51l =>
    { base with
      regs := [aa]
      lit := (wide.toUInt64 ||| ((pair (w 3) (w 4)).toUInt64 <<< 32)).toInt64 }

/-- The first unit of a table of neighbouring keys. -/
def packedMark : UInt16 := 0x0100

/-- The first unit of a table of listed keys. -/
def sparseMark : UInt16 := 0x0200

/-- The first unit of a table of array contents. -/
def arrayMark : UInt16 := 0x0300

/-- The size in units of the payload at `pc`, when its first unit marks one. A payload whose head
does not fit has size zero; the size of array contents is computed modulo two to the 32. -/
def payloadSize? (units : Array UInt16) (pc : Nat) : Option Nat :=
  let mark := units.getD pc 0
  let count := (units.getD (pc + 1) 0).toNat
  if mark = packedMark then some (if pc + 2 > units.size then 0 else count * 2 + 4)
  else if mark = sparseMark then some (if pc + 2 > units.size then 0 else count * 4 + 2)
  else if mark = arrayMark then
    let length := (pair (units.getD (pc + 2) 0) (units.getD (pc + 3) 0)).toNat
    some (if pc + 4 > units.size then 0 else (count * length + 1) % 0x100000000 / 2 + 4)
  else none

def opcodeAt (units : Array UInt16) (pc : Nat) : Opcode := ⟨(units.getD pc 0).toUInt8⟩

/-- The instructions from unit `pc` on; payloads are passed over. -/
def scan (units : Array UInt16) (pc : Nat) : Outcome (List Instruction) :=
  if pc < units.size then
    match payloadSize? units pc with
    | some size =>
      if size = 0 ∨ pc + size > units.size then
        Outcome.failWith .instructionPayload ("payload at " ++ Text.hex pc 4)
      else scan units (pc + size)
    | none =>
      if pc + (opcodeAt units pc).format.units > units.size then
        Outcome.failWith .instructionStream
          ((opcodeAt units pc).name ++ " at " ++ Text.hex pc 4 ++ " overruns code")
      else do
        let head :=
          decodeOne (fun i => units.getD (pc + i) 0) (UInt32.ofNat pc) (opcodeAt units pc)
        let rest ← scan units (pc + (opcodeAt units pc).format.units)
        return head :: rest
  else .ok []
termination_by units.size - pc
decreasing_by
  · omega
  · have wide := (opcodeAt units pc).format.units_pos
    omega

def isStart (instructions : List Instruction) (addr : UInt32) : Bool :=
  instructions.any fun i => i.addr == addr

def strayBranch {α : Type} (i : Instruction) (target : UInt32) : Outcome α :=
  Outcome.failWith .branchTarget
    (i.op.name ++ " at " ++ Text.hex i.addr.toNat 4 ++ " -> " ++ Text.hex target.toNat 4)

def noPayload {α : Type} (i : Instruction) : Outcome α :=
  Outcome.failWith .instructionPayload (i.op.name ++ " at " ++ Text.hex i.addr.toNat 4)

/-- The unit at a position that has to be inside the code. -/
def unitAt (units : Array UInt16) (place : Nat) : Outcome UInt16 := Outcome.ofOption units[place]?

/-- Two units at a position that have to be inside the code. -/
def pairAt (units : Array UInt16) (place : Nat) : Outcome UInt32 := do
  let low ← unitAt units place
  let high ← unitAt units (place + 1)
  return pair low high

/-- The switch table at `p`: neighbouring keys from a first one on, or every key listed. -/
def readBranches (units : Array UInt16) (i : Instruction) (packed : Bool) (p : Nat) :
    Outcome Payload := do
  let size := (payloadSize? units p).getD 0
  if (← unitAt units p) ≠ (if packed then packedMark else sparseMark) ∨ p + size > units.size then
    noPayload i
  else
    let count := (← unitAt units (p + 1)).toNat
    let steps := List.range count
    if packed then
      let first ← pairAt units (p + 2)
      let keys := steps.map fun k => (first + UInt32.ofNat k).toInt32
      let targets ← steps.mapM fun k => return i.addr + (← pairAt units (p + 4 + 2 * k))
      return .branches keys targets
    else
      let keys ← steps.mapM fun k => return (← pairAt units (p + 2 + 2 * k)).toInt32
      let targets ← steps.mapM fun k => return i.addr + (← pairAt units (p + 2 + 2 * count + 2 * k))
      return .branches keys targets

def elementByte (units : Array UInt16) (start index : Nat) : Outcome UInt8 := do
  let w ← unitAt units (start + index / 2)
  return if index % 2 = 0 then w.toUInt8 else (w >>> 8).toUInt8

def signExtended (width : Nat) (bytes : List UInt8) : Int64 :=
  let raw : Nat := bytes.foldr (fun b rest => b.toNat + 256 * rest) 0
  Int64.ofInt (Int.bmod raw (1 <<< (8 * width)))

/-- The array contents at `p`. Their head may lie partly outside the code, and their size is
checked modulo two to the 32 only, so that reading them can leave the code. -/
def readElements (units : Array UInt16) (i : Instruction) (p : Nat) : Outcome Payload := do
  let size := (payloadSize? units p).getD 0
  if (← unitAt units p) ≠ arrayMark ∨ p + size > units.size then noPayload i
  else
    let width := (← unitAt units (p + 1)).toNat
    let count := (← pairAt units (p + 2)).toNat
    if width ≠ 1 ∧ width ≠ 2 ∧ width ≠ 4 ∧ width ≠ 8 then
      Outcome.failWith .instructionPayload ("fill-array-data element width " ++ Text.ofNat width)
    else if p + 4 + (width * count + 1) / 2 > units.size then Outcome.crash
    else
      let values ← (List.range count).mapM fun k => do
        let bytes ← (List.range width).mapM fun b => elementByte units (p + 4) (k * width + b)
        return signExtended width bytes
      return .elements width values

/-- The instruction with a payload that was read for it, unless that leads astray. -/
def Instruction.withPayload (all : List Instruction) (i : Instruction) (payload : Payload) :
    Outcome Instruction :=
  match payload with
  | .branches _ targets =>
    match targets.find? fun t => !isStart all t with
    | some stray => strayBranch i stray
    | none => return { i with payload := some payload }
  | .elements _ _ => return { i with payload := some payload }

/-- Checks the branch targets of one instruction and attaches its payload. The address of a payload
is checked modulo two to the 32. -/
def attach (units : Array UInt16) (all : List Instruction) (i : Instruction) :
    Outcome Instruction := do
  match i.op.format with
  | .f10t | .f20t | .f30t | .f21t | .f22t =>
    if isStart all i.target then return i else strayBranch i i.target
  | .f31t =>
    if (i.target.toNat + 2) % 0x100000000 > units.size then noPayload i
    else
      let payload ←
        if i.op.code = 0x26 then readElements units i i.target.toNat
        else readBranches units i (i.op.code == 0x2b) i.target.toNat
      i.withPayload all payload
  | _ => return i

def decodeInstructions (units : Array UInt16) : Outcome (List Instruction) := do
  let all ← scan units 0
  all.mapM (attach units all)

end DexLift.Dex
