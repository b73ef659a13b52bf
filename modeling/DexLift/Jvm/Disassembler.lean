import DexLift.Jvm.Reader

/-!
# Reading bytecode back

Bytecode is decoded into instructions with their operands: slots, constants,
indices into the constant pool, absolute addresses. A switch has the default
address first and then pairs of key and address.
-/

namespace DexLift.Jvm

structure Instruction where
  pc : Nat
  op : Opcode
  /-- Whether it came with the prefix for wide operands. -/
  isWide : Bool := false
  args : List Int := []

namespace Scan

/-- Passes over bytes up to an address that is a multiple of four. -/
def align4 : (fuel : Nat) → Scan Unit
  | 0 => return ()
  | fuel + 1 => do
    if (← get).off % 4 != 0 && (← isFine) then
      let _ ← u1
      align4 fuel

def tableCases (pc : Nat) : (count : Nat) → (key : Int) → Scan (List Int)
  | 0, _ => return []
  | count + 1, key => do
    if ← isFine then
      let target := (pc : Int) + (← s4)
      return key :: target :: (← tableCases pc count (key + 1))
    else return []

/-- At most `count` keys with their addresses relative to `pc`. -/
def lookupCases (pc : Nat) : (count : Nat) → Scan (List Int)
  | 0 => return []
  | count + 1 => do
    if ← isFine then
      let key ← s4
      let target := (pc : Int) + (← s4)
      return key :: target :: (← lookupCases pc count)
    else return []

/-- The operands of a switch; `size` is the length of the code, which bounds the number of cases. -/
def switchArgs (op : Opcode) (pc size : Nat) : Scan (Outcome (List Int)) := do
  align4 3
  let default := (pc : Int) + (← s4)
  let place := Text.ofNat pc
  if op = .tableswitch then
    let low ← s4
    let high ← s4
    if high < low ∨ high - low > size then
      return Outcome.failWith .bytecode ("tableswitch bounds at " ++ place)
    return .ok (default :: (← tableCases pc (high - low + 1).toNat low))
  else
    let count ← s4
    if count < 0 ∨ count > size then
      return Outcome.failWith .bytecode ("lookupswitch size at " ++ place)
    return .ok (default :: (← lookupCases pc count.toNat))

/-- The operands of an instruction that is no switch and has no prefix. -/
def plainArgs (op : Opcode) (pc : Nat) : Scan (List Int) := do
  let unsigned2 : Scan Int := do return (← u2).toNat
  let unsigned1 : Scan Int := do return (← u1).toNat
  if op = .bipush then return [← s1]
  else if op = .sipush then return [← s2]
  else if op = .iinc then
    let slot ← unsigned1
    return [slot, ← s1]
  else if op = .gotoW ∨ op = .jsrW then return [(pc : Int) + (← s4)]
  else if op = .invokeinterface ∨ op = .invokedynamic then
    let index ← unsigned2
    let _ ← u1
    let _ ← u1
    return [index]
  else if op = .multianewarray then
    let index ← unsigned2
    return [index, ← unsigned1]
  else if op.isBranch then return [(pc : Int) + (← s2)]
  else if op.operandBytes = 1 then return [← unsigned1]
  else if op.operandBytes = 2 then return [← unsigned2]
  else return []

def instruction : Scan (Outcome Instruction) := do
  let s ← get
  let pc := s.off
  let op : Opcode := ⟨← u1⟩
  if !op.isAssigned then
    return Outcome.failWith .bytecode
      ("opcode 0x" ++ Text.hexByte op.code ++ " at " ++ Text.ofNat pc)
  else if op = .wide then
    let op : Opcode := ⟨← u1⟩
    let slot : Int := (← u2).toNat
    let args ← if op = .iinc then do pure [slot, ← s2] else pure [slot]
    return .ok { pc, op, isWide := true, args }
  else if op = .tableswitch ∨ op = .lookupswitch then
    let args ← switchArgs op pc s.data.size
    return args.map fun args => { pc, op, args }
  else return .ok { pc, op, args := ← plainArgs op pc }

/-- Instructions up to the end of the code or a failure. Each takes at least one byte. -/
def instructions : (fuel : Nat) → Scan (List Instruction × Option Failure)
  | 0 => return ([], none)
  | fuel + 1 => do
    let s ← get
    if s.off ≥ s.data.size || s.failure.isSome then return ([], none)
    else
      match ← instruction with
      | .error (.failed failure) => return ([], some failure)
      | .error _ => return ([], none)
      | .ok i =>
        let (rest, failure) ← instructions fuel
        return (i :: rest, failure)

end Scan

/-- The instructions of some bytecode, and the failure that ended the decoding, if one did. What was
decoded up to it is kept. -/
def disassemble (code : ByteArray) : List Instruction × Option Failure :=
  let ((found, failure), scanner) := (Scan.instructions (code.size + 1)).run { data := code }
  (found, failure <|> scanner.failure.map fun f => ⟨[.detail f.message], .bytecode⟩)

/-- Pairs of key and address as they are shown. -/
def casesText : List Int → Text
  | key :: target :: rest =>
    ", " ++ Text.ofInt key ++ ": " ++ Text.ofInt target ++ casesText rest
  | _ => ∅

/-- An instruction as it is shown; with a pool its entries are described. -/
def Instruction.text (i : Instruction) (pool : Option Pool) : Text :=
  let start := Text.column 5 i.pc ++ ": " ++ i.op.name ++ (if i.isWide then " (wide)" else "")
  let plain := Text.concat (i.args.map fun a => " " ++ Text.ofInt a)
  let first := i.args.headD 0
  if i.op = .tableswitch ∨ i.op = .lookupswitch then
    start ++ " \x7b default: " ++ Text.ofInt first ++ casesText i.args.tail ++ " \x7d"
  else
    match i.op.usesPool, pool with
    | true, some pool =>
      let dims := match i.args with
        | _ :: n :: _ => " dims " ++ Text.ofInt n
        | _ => ∅
      start ++ " #" ++ Text.ofInt first ++ " // " ++
        pool.describe (UInt16.ofNat (first % 65536).toNat) ++ dims
    | _, _ => start ++ plain

/-!
## Listings of classes

The declarations of a class file and, when asked for, its bytecode.
-/

/-- An initial value as a declaration shows it. -/
def FieldValue.shown (v : FieldValue) : Text :=
  if v.tag = stringTag then v.text.quote
  else if v.tag = 74 then Text.ofInt v.bits.toInt64.toInt ++ "L"
  else if v.tag = 70 then Decimal.general .single v.bits.toUInt32.toNat ++ "f"
  else if v.tag = 68 then Decimal.general .double v.bits.toNat
  else Text.ofInt v.bits.toUInt32.toInt32.toInt

/-- Access flags of a class file. -/
def accessOf (bits : UInt16) : Access := ⟨bits.toUInt32⟩

def Code.listing (c : Code) (pool : Pool) : Text :=
  let (found, failure) := disassemble ⟨c.bytecode.toArray⟩
  let sizes := "    stack=" ++ Text.ofNat c.maxStack.toNat ++ ", locals=" ++
    Text.ofNat c.maxLocals.toNat ++ ", " ++ Text.ofNat c.bytecode.length ++ " bytes\n"
  let shown : List Text := found.map fun i => "  " ++ i.text (some pool) ++ "\n"
  let failed : List Text := failure.toList.map fun f => "    <" ++ f.message ++ ">\n"
  let tries := c.exceptions.map fun e =>
    let type : Text := if e.type = 0 then "any" else pool.className e.type
    "    try " ++ Text.ofNat e.start.toNat ++ "-" ++ Text.ofNat e.stop.toNat ++ " -> " ++
      Text.ofNat e.handler.toNat ++ " " ++ type ++ "\n"
  let map := (c.stackMap.getD []).length
  let stackMap : Text :=
    if map = 0 then ∅ else "    StackMapTable: " ++ Text.ofNat map ++ " bytes\n"
  sizes ++ Text.concat (shown ++ failed ++ tries) ++ stackMap

def Field.listing (f : Field) : Text :=
  let value : Text := match f.value with
    | some v => " = " ++ v.shown
    | none => ∅
  "  " ++ (accessOf f.access).lead Access.fieldFlags ++ f.name ++ " " ++ f.desc ++ value ++ "\n"

def Method.listing (m : Method) (pool : Pool) (withCode : Bool) : Text :=
  let throws : Text := if m.throws.isEmpty then ∅ else " throws " ++ Text.join ", " m.throws
  let body : Text := match withCode, m.code with
    | true, some code => code.listing pool
    | _, _ => ∅
  "  " ++ (accessOf m.access).lead Access.methodFlags ++ m.name ++ m.desc ++ throws ++ "\n" ++ body

def ClassFile.listing (c : ClassFile) (withCode : Bool) : Text :=
  let flags := accessOf (c.access &&& (0xffff ^^^ superFlag))
  let part (word : String) (text : Text) : Text := if text.isEmpty then ∅ else word ++ text
  let implements : Text :=
    if c.interfaces.isEmpty then ∅ else " implements " ++ Text.join ", " c.interfaces
  let head :=
    flags.lead Access.classFlags ++ c.name ++ part " extends " c.super ++ implements ++ "\n"
  let version := "  version " ++ Text.ofNat c.major.toNat ++ "." ++ Text.ofNat c.minor.toNat ++
    part ", source " c.source ++ ", " ++ Text.ofNat c.pool.count ++ " constants\n"
  let signature : Text :=
    if c.signature.isEmpty then ∅ else "  signature " ++ c.signature ++ "\n"
  head ++ version ++ signature ++ Text.concat (c.fields.map Field.listing) ++
    Text.concat (c.methods.map fun m => m.listing c.pool withCode)

end DexLift.Jvm
