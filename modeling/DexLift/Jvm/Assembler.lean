import DexLift.Jvm.Opcode
import DexLift.Jvm.StackMap
import DexLift.Order.Quicksort

/-!
# Assembling bytecode

Instructions are appended one after another. Whoever appends them need not know
how long they are: constants and slots get the shortest form, and jumps stay
symbolic until all instructions are there. The depth of the operand stack is
followed on the way.
-/

namespace DexLift.Jvm

/-- A place in the code, by number. -/
abbrev CodeLabel := Nat

inductive Item where
  | bytes (data : List UInt8)
  /-- A jump, which has a long form for targets that are far away. -/
  | jump (op : Opcode) (target : CodeLabel) (isLong : Bool)
  /-- A switch over consecutive keys, or over keys in ascending order. -/
  | switch (isTable : Bool) (keys : List Int) (targets : List CodeLabel) (default : CodeLabel)
deriving Inhabited

/-- A range of code whose exceptions go to a handler; the empty type means all of them. -/
structure Catcher where
  start : CodeLabel
  stop : CodeLabel
  handler : CodeLabel
  type : Text

/-- The state of assembling one method. Items are referred to by position. -/
structure Assembler where
  pool : Pool
  items : Array Item := #[]
  /-- For each label the item it stands before. -/
  labels : Array (Option Nat) := #[]
  catchers : Array Catcher := #[]
  lines : Array (Nat × Nat) := #[]
  frames : Array (Nat × Frame) := #[]
  initial : List VType := []
  depth : Int := 0
  maxStack : Int := 0
  maxLocals : Nat := 0
  /-- The first failure, which is told when the code is finished. -/
  failure : Option Failure := none

/-- A step of assembling. What was done before a step that fails stays done. -/
abbrev Asm := ExceptT Stop (StateM Assembler)

namespace Asm

def update (change : Assembler → Assembler) : Asm Unit := modify change

/-- Uses the constant pool. -/
def intern {α : Type} (step : Intern α) : Asm α := do
  let a ← get
  let (value, pool) := step.run a.pool
  set { a with pool }
  return value

def lift {α : Type} (outcome : Outcome α) : Asm α := ExceptT.mk (pure outcome)

/-- The first byte of a descriptor, which must not be empty. -/
def firstOf (desc : Text) : Asm UInt8 := lift (Outcome.ofOption desc.first?)

def newLabel : Asm CodeLabel := do
  let a ← get
  set { a with labels := a.labels.push none }
  return a.labels.size

/-- Places a label before the next instruction. -/
def mark (l : CodeLabel) : Asm Unit :=
  update fun a => { a with labels := a.labels.setIfInBounds l (some a.items.size) }

def useLocals (types : List VType) : Asm Unit :=
  update fun a => { a with maxLocals := max a.maxLocals (VType.slots types) }

/-- Changes the depth of the stack. A depth below zero is a failure. -/
def grow (delta : Int) : Asm Unit :=
  update fun a =>
    let depth := a.depth + delta
    let underflow : Option Failure :=
      if depth < 0 then
        some ⟨[.detail ("at instruction " ++ Text.ofNat a.items.size)], .stackUnderflow⟩
      else none
    { a with depth, maxStack := max a.maxStack depth, failure := a.failure <|> underflow }

/-- Sets the depth of the stack behind code that control does not run on from. -/
def emptyStack : Asm Unit := update fun a => { a with depth := 0 }

def setInitialFrame (locals : List VType) : Asm Unit := do
  update fun a => { a with initial := locals }
  useLocals locals

/-- Sets the types before the next instruction. -/
def frame (f : Frame) : Asm Unit := do
  useLocals f.locals
  update fun a =>
    let here := a.items.size
    let earlier := match a.frames.back? with
      | some (place, _) => if place = here then a.frames.pop else a.frames
      | none => a.frames
    { a with frames := earlier.push (here, f), depth := VType.slots f.stack }
  grow 0

/-- Notes the source line of the next instruction. -/
def line (n : Int) : Asm Unit :=
  update fun a =>
    if n < 0 ∨ n > 65535 ∨ (a.lines.back?.map fun entry => (entry.2 : Int)) = some n then a
    else { a with lines := a.lines.push (a.items.size, n.toNat) }

/-- Adds an entry to the exception table. -/
def catch_ (c : Catcher) : Asm Unit := update fun a => { a with catchers := a.catchers.push c }

def append (item : Item) (delta : Int) : Asm Unit := do
  update fun a => { a with items := a.items.push item }
  grow delta

def emit (delta : Int) (op : Opcode) (operands : List UInt8) : Asm Unit :=
  append (.bytes (op.code :: operands)) delta

/-- Appends an instruction without operands. -/
def op (o : Opcode) : Asm Unit := do
  emit o.delta o []
  if o.leaves then emptyStack

def loadConstant (index : UInt16) : Asm Unit :=
  if index ≤ 255 then emit 1 .ldc [index.toUInt8] else emit 1 .ldcW (u2 index)

def int (n : Int32) : Asm Unit := do
  let v := n.toInt
  if -1 ≤ v ∧ v ≤ 5 then emit 1 ⟨byteOfInt (3 + v)⟩ []
  else if -128 ≤ v ∧ v ≤ 127 then emit 1 .bipush [byteOfInt v]
  else if -32768 ≤ v ∧ v ≤ 32767 then emit 1 .sipush (u2OfInt v)
  else loadConstant (← intern (Pool.integer n))

def long (bits : UInt64) : Asm Unit := do
  if bits = 0 ∨ bits = 1 then emit 2 (Opcode.lconst0.plus bits.toNat) []
  else emit 2 .ldc2W (u2 (← intern (Pool.long bits)))

/-- Pushes a float. Zero with a sign has no instruction of its own. -/
def float (bits : UInt32) : Asm Unit := do
  if bits = 0 then emit 1 .fconst0 []
  else if bits = 0x3f800000 then emit 1 (Opcode.fconst0.plus 1) []
  else if bits = 0x40000000 then emit 1 (Opcode.fconst0.plus 2) []
  else loadConstant (← intern (Pool.float bits))

def double (bits : UInt64) : Asm Unit := do
  if bits = 0 then emit 2 .dconst0 []
  else if bits = 0x3ff0000000000000 then emit 2 (Opcode.dconst0.plus 1) []
  else emit 2 .ldc2W (u2 (← intern (Pool.double bits)))

def string (text : Text) : Asm Unit := do loadConstant (← intern (Pool.string text))

def classConst (name : Text) : Asm Unit := do loadConstant (← intern (Pool.class_ name))

def null : Asm Unit := emit 1 .aconstNull []

/-- The place of a descriptor among int, long, float, double and reference. -/
def typeIndex (desc : Text) : Asm Nat := do
  let b ← firstOf desc
  return if b ∈ [90, 66, 67, 83, 73] then 0 else if b = 74 then 1 else if b = 70 then 2
    else if b = 68 then 3 else 4

/-- Appends a load or a store. `short` is the first of the opcodes that have the slot built in. -/
def access (base short : Opcode) (desc : Text) (slot : Int) (delta : Int) : Asm Unit := do
  let place ← typeIndex desc
  update fun a => { a with maxLocals := max a.maxLocals (slot + Descriptor.slots desc).toNat }
  if slot ≤ 3 then emit delta ⟨(short.plus (place * 4)).code + byteOfInt slot⟩ []
  else if slot ≤ 255 then emit delta (base.plus place) [byteOfInt slot]
  else emit delta .wide ((base.plus place).code :: u2OfInt slot)

def load (desc : Text) (slot : Int) : Asm Unit :=
  access .iload .iload0 desc slot (Descriptor.slots desc)

def store (desc : Text) (slot : Int) : Asm Unit :=
  access .istore .istore0 desc slot (-(Descriptor.slots desc : Int))

def increment (slot : Int) (n : Int) : Asm Unit := do
  update fun a => { a with maxLocals := max a.maxLocals (slot + 1).toNat }
  if slot ≤ 255 ∧ -128 ≤ n ∧ n ≤ 127 then emit 0 .iinc [byteOfInt slot, byteOfInt n]
  else emit 0 .wide (Opcode.iinc.code :: u2OfInt slot ++ u2OfInt n)

/-- Returns a value of a descriptor, or nothing for `V`. -/
def return_ (desc : Text) : Asm Unit := do
  if desc = "V" then op .return_ else op (Opcode.ireturn.plus (← typeIndex desc))

/-- The place of an element type in the families of array opcodes; none for an unknown letter. -/
def elementIndex (element : Text) : Asm (Option Nat) := do
  let b ← firstOf element
  return if b = 73 then some 0 else if b = 74 then some 1 else if b = 70 then some 2
    else if b = 68 then some 3 else if b = 76 ∨ b = 91 then some 4
    else if b = 90 ∨ b = 66 then some 5 else if b = 67 then some 6
    else if b = 83 then some 7 else none

/-- Appends an opcode of a family with one for each element type. -/
def elementOp (base : Opcode) (element : Text) : Asm Unit := do
  op (((← elementIndex element).map base.plus).getD .nop)

def arrayLoad (element : Text) : Asm Unit := elementOp .iaload element

def arrayStore (element : Text) : Asm Unit := elementOp .iastore element

/-- Reads or writes a field. -/
def field (o : Opcode) (owner name desc : Text) : Asm Unit := do
  let size : Int := Descriptor.slots desc
  let delta : Int :=
    if o = .getstatic then size else if o = .putstatic then -size
    else if o = .getfield then size - 1 else if o = .putfield then -size - 1 else 0
  emit delta o (u2 (← intern (Pool.fieldRef owner name desc)))

/-- The bytes behind one parameter type, which must be complete. -/
def afterType : List UInt8 → Outcome (List UInt8)
  | [] => Outcome.crash
  | b :: rest =>
    if b = Descriptor.bracket then afterType rest
    else if b = Descriptor.letterL then
      match (b :: rest).dropWhile (· != Descriptor.semicolon) with
      | [] => Outcome.crash
      | _ :: rest => .ok rest
    else .ok rest

/-- The slots of the parameters from here on, and what follows the closing parenthesis. At most
`fuel` parameters are read. -/
def paramSlots : (fuel : Nat) → List UInt8 → Outcome (Nat × List UInt8)
  | _, [] => Outcome.crash
  | 0, _ => Outcome.crash
  | fuel + 1, b :: rest =>
    if b = 41 then .ok (0, rest)
    else do
      let behind ← afterType (b :: rest)
      let param : Text := ⟨(b :: rest).take (rest.length + 1 - behind.length)⟩
      let (more, result) ← paramSlots fuel behind
      return (Descriptor.slots param + more, result)

def descSlots (desc : Text) : Outcome (Nat × Nat) := do
  let (args, result) ← paramSlots desc.length desc.bytes.tail
  return (args, Descriptor.slots ⟨result⟩)

def invoke (o : Opcode) (owner name desc : Text) (ofInterface : Bool) : Asm Unit := do
  let (args, result) ← lift (descSlots desc)
  let receiver : Int := if o = .invokestatic then 0 else 1
  let index ← intern
    (if ofInterface || o == .invokeinterface then Pool.interfaceMethodRef owner name desc
     else Pool.methodRef owner name desc)
  let count := if o = .invokeinterface then [UInt8.ofNat (args + 1), 0] else []
  emit ((result : Int) - args - receiver) o (u2 index ++ count)

def typeOp (o : Opcode) (name : Text) : Asm Unit := do
  emit o.delta o (u2 (← intern (Pool.class_ name)))

def primitiveCode? (b : UInt8) : Option UInt8 :=
  ([(90, 4), (67, 5), (70, 6), (68, 7), (66, 8), (83, 9), (73, 10), (74, 11)].find? fun entry =>
    entry.1 == b).map Prod.snd

def newArray (element : Text) : Asm Unit := do
  match primitiveCode? (← firstOf element) with
  | some code => emit 0 .newarray [code]
  | none => typeOp .anewarray (Descriptor.className element)

def multiArray (desc : Text) (dims : Int) : Asm Unit := do
  let index ← intern (Pool.class_ desc)
  emit (1 - dims) .multianewarray (u2 index ++ [byteOfInt dims])

def jump (o : Opcode) (target : CodeLabel) : Asm Unit := do
  append (.jump o target false) o.delta
  if o = .goto then emptyStack

/-- Branches on consecutive keys from `low` on. Keys wrap round at the greatest int. -/
def tableSwitch (low : Int32) (targets : List CodeLabel) (default : CodeLabel) : Asm Unit := do
  let keys := (List.range targets.length).map fun i => (low + Int32.ofNat i).toInt
  append (.switch true keys targets default) (-1)
  emptyStack

/-- The branches of a lookup, by ascending key. The stable merge makes the order evident and leaves
equal keys as the quicksort arranged them. -/
def sortBranches (branches : List (Int32 × CodeLabel)) : List (Int32 × CodeLabel) :=
  (quicksort (fun a b => a.1 < b.1) branches).mergeSort fun a b => a.1 ≤ b.1

def lookupSwitch (keys : List Int32) (targets : List CodeLabel) (default : CodeLabel) :
    Asm Unit := do
  if targets.length < keys.length then lift Outcome.crash
  let branches := sortBranches (keys.zip targets)
  append (.switch false (branches.map fun p => p.1.toInt) (branches.map Prod.snd) default) (-1)
  emptyStack

def denseTargets (branches : List (Int32 × CodeLabel)) (low : Int32) (span : Nat)
    (default : CodeLabel) : Array CodeLabel :=
  branches.foldl (fun dense (key, target) =>
    dense.setIfInBounds (key.toInt - low.toInt).toNat target) (Array.replicate span default)

/-- Branches on keys: by a table when they are dense enough. -/
def switch (keys : List Int32) (targets : List CodeLabel) (default : CodeLabel) : Asm Unit := do
  match keys with
  | [] => lookupSwitch [] [] default
  | first :: rest =>
    let low := rest.foldl min first
    let high := rest.foldl max first
    let span := (high.toInt - low.toInt + 1).toNat
    if span > 2147483647 ∨ 4 + span + 9 > 3 + 5 * keys.length then
      lookupSwitch keys targets default
    else
      if targets.length < keys.length then lift Outcome.crash
      tableSwitch low (denseTargets (keys.zip targets) low span default).toList default

end Asm

end DexLift.Jvm
