import DexLift.Lower.Plan

/-!
# What Dalvik opcodes do

The many opcodes fall into few families. An opcode's meaning names its family
and what distinguishes it there; how operands are encoded no longer matters.
-/

namespace DexLift.Lower

open Ir

/-- What an instruction does with its operands. -/
inductive Meaning where
  | nop
  | move (wide : Bool)
  | moveResult
  | moveException
  | returnVoid
  | returnValue
  | constNarrow
  | constWide
  | constString
  | constClass
  | monitor (enter : Bool)
  | checkCast
  | instanceOf
  | arrayLength
  | newInstance
  | newArray
  | filledNewArray
  | fillArray
  | throw
  | goto
  | switch
  /-- Compares two registers into a third. -/
  | compare (op : Op) (type : Ty)
  | branch (cond : Cond)
  | branchZero (cond : Cond)
  | arrayGet (type : Ty)
  | arrayPut (type : Ty)
  | fieldGet
  | fieldPut
  | staticGet
  | staticPut
  | invoke (kind : InvokeKind)
  | unary (op : Op) (type : Ty)
  | convert (source target : Kind)
  | binary (op : Op) (type : Ty)
  /-- The first register is both the left operand and the target. -/
  | binaryInPlace (op : Op) (type : Ty)
  /-- A register and a literal, exchanged when `reversed`. -/
  | literal (op : Op) (reversed : Bool)
  /-- An opcode that has no counterpart. -/
  | unsupported
deriving DecidableEq

/-- Operators in the order in which integer opcodes use them. -/
def intOps : List Op := [.add, .sub, .mul, .div, .rem, .and, .or, .xor, .shl, .shr, .ushr]

/-- Element types in the order in which array opcodes use them. -/
def elementTypes : List Ty :=
  [{ kind := .narrow }, { kind := .wide }, { kind := .ref }, { kind := .int, desc := "Z" },
   { kind := .int, desc := "B" }, { kind := .int, desc := "C" }, { kind := .int, desc := "S" }]

/-- Conversions in the order of their opcodes. -/
def conversions : List (Kind × Kind) :=
  [(.int, .long), (.int, .float), (.int, .double), (.long, .int), (.long, .float), (.long, .double),
   (.float, .int), (.float, .long), (.float, .double), (.double, .int), (.double, .long),
   (.double, .float)]

/-- Comparisons in the order of their opcodes. -/
def comparisons : List (Op × Kind) :=
  [(.cmpl, .float), (.cmpg, .float), (.cmpl, .double), (.cmpg, .double), (.cmp, .long)]

/-- Operations on one number, in the order of their opcodes. -/
def negations : List (Op × Kind) :=
  [(.neg, .int), (.not, .int), (.neg, .long), (.not, .long), (.neg, .float), (.neg, .double)]

/-- Operator and operand kind of the arithmetic opcode at a place in its family. -/
def arithmeticAt (place : Nat) : Op × Kind :=
  if place < 11 then (intOps.getD place .add, .int)
  else if place < 22 then (intOps.getD (place - 11) .add, .long)
  else if place < 27 then (intOps.getD (place - 22) .add, .float)
  else (intOps.getD (place - 27) .add, .double)

def meaning (op : Dex.Opcode) : Meaning :=
  let code := op.code.toNat
  let from_ (first : Nat) : Nat := code - first
  if code = 0x00 then .nop
  else if code ≤ 0x09 then .move (0x04 ≤ code && code ≤ 0x06)
  else if code ≤ 0x0c then .moveResult
  else if code = 0x0d then .moveException
  else if code = 0x0e then .returnVoid
  else if code ≤ 0x11 then .returnValue
  else if code ≤ 0x15 then .constNarrow
  else if code ≤ 0x19 then .constWide
  else if code ≤ 0x1b then .constString
  else if code = 0x1c then .constClass
  else if code ≤ 0x1e then .monitor (code == 0x1d)
  else if code = 0x1f then .checkCast
  else if code = 0x20 then .instanceOf
  else if code = 0x21 then .arrayLength
  else if code = 0x22 then .newInstance
  else if code = 0x23 then .newArray
  else if code ≤ 0x25 then .filledNewArray
  else if code = 0x26 then .fillArray
  else if code = 0x27 then .throw
  else if code ≤ 0x2a then .goto
  else if code ≤ 0x2c then .switch
  else if code ≤ 0x31 then
    let (op, kind) := comparisons.getD (from_ 0x2d) (.cmp, .long)
    .compare op { kind }
  else if code ≤ 0x37 then .branch (Cond.all.getD (from_ 0x32) .eq)
  else if code ≤ 0x3d then .branchZero (Cond.all.getD (from_ 0x38) .eq)
  else if code < 0x44 then .unsupported
  else if code ≤ 0x4a then .arrayGet (elementTypes.getD (from_ 0x44) .top)
  else if code ≤ 0x51 then .arrayPut (elementTypes.getD (from_ 0x4b) .top)
  else if code ≤ 0x58 then .fieldGet
  else if code ≤ 0x5f then .fieldPut
  else if code ≤ 0x66 then .staticGet
  else if code ≤ 0x6d then .staticPut
  else if code ≤ 0x72 then .invoke (InvokeKind.all.getD (from_ 0x6e) .virtual)
  else if code = 0x73 then .unsupported
  else if code ≤ 0x78 then .invoke (InvokeKind.all.getD (from_ 0x74) .virtual)
  else if code < 0x7b then .unsupported
  else if code ≤ 0x80 then
    let (op, kind) := negations.getD (from_ 0x7b) (.neg, .int)
    .unary op { kind }
  else if code ≤ 0x8c then
    let (source, target) := conversions.getD (from_ 0x81) (.int, .int)
    .convert source target
  else if code ≤ 0x8f then .unary ([Op.toByte, .toChar, .toShort].getD (from_ 0x8d) .toByte) .int
  else if code ≤ 0xaf then
    let (op, kind) := arithmeticAt (from_ 0x90)
    .binary op { kind }
  else if code ≤ 0xcf then
    let (op, kind) := arithmeticAt (from_ 0xb0)
    .binaryInPlace op { kind }
  else if code ≤ 0xe2 then
    let place := if code < 0xd8 then from_ 0xd0 else from_ 0xd8
    .literal (intOps.getD place .add) (place == 1)
  else .unsupported

/-!
## Instructions as statements

A block is followed with a file of registers. A register holds the local that
its value was given last, or nothing. Reading a register reads that local;
writing makes a new local and a statement that defines it. A move writes
nothing: both registers hold the same local afterwards.
-/

open Ir

abbrev Registers := Array (Option LocalId)

/-- The state while a block is followed. -/
structure Frame where
  method : Ir.Method
  registers : Registers
  /-- The statements of the block, the last one first. -/
  stmts : List StmtId := []
  /-- The source line of the instruction at hand. -/
  line : Option Nat := none

/-- A step that may change the state or fail. -/
abbrev Step := StateT Frame Outcome

namespace Step

section Running

variable {α β : Type} {frame after : Frame}

theorem run_bind {first : Step α} {next : α → Step β} {b : β} :
    (first >>= next).run frame = .ok (b, after) ↔
      ∃ a middle, first.run frame = .ok (a, middle) ∧ (next a).run middle = .ok (b, after) := by
  rw [StateT.run_bind]
  cases result : first.run frame with
  | error stop => simp [bind, Except.bind]
  | ok pair =>
    constructor
    · intro done
      exact ⟨pair.1, pair.2, rfl, done⟩
    · rintro ⟨_, _, same, done⟩
      cases same
      exact done

/-- A step that only gives a value. -/
theorem run_pure {a b : α} : (pure a : Step α).run frame = .ok (b, after) ↔ a = b ∧ frame = after := by
  rw [StateT.run_pure]
  simp [pure, Except.pure]

theorem run_lift {outcome : Outcome α} {a : α} :
    (liftM outcome : Step α).run frame = .ok (a, after) ↔ outcome = .ok a ∧ frame = after := by
  cases outcome with
  | error stop =>
    simp [liftM, monadLift, MonadLift.monadLift, StateT.lift, StateT.run, bind, Except.bind]
  | ok value =>
    simp [liftM, monadLift, MonadLift.monadLift, StateT.lift, StateT.run, bind, Except.bind, pure,
      Except.pure]

theorem run_get {seen : Frame} :
    (get : Step Frame).run frame = .ok (seen, after) ↔ frame = seen ∧ frame = after := by
  simp [get, getThe, MonadStateOf.get, StateT.get, StateT.run, pure, Except.pure]

end Running

/-- Makes a statement of the current line. -/
def emit (action : Action) : Step Unit := do
  let frame ← get
  let (id, method) := frame.method.newStmt { action, line := frame.line }
  set { frame with method, stmts := id :: frame.stmts }

def newLocal (type : Ty) : Step LocalId := do
  let frame ← get
  let (id, method) := frame.method.newLocal type
  set { frame with method }
  return id

def put (reg : Nat) (value : Option LocalId) : Step Unit :=
  modify fun frame => { frame with registers := frame.registers.setIfInBounds reg value }

/-- Ends in a failure at a register. -/
def failAt {α : Type} (cause : Cause) (reg : UInt16) : Step α :=
  liftM (Outcome.failWith cause ("v" ++ Text.ofNat reg.toNat) : Outcome α)

/-- Refuses a register that does not exist; a wide value needs the next one too. -/
def check (reg : UInt16) (wide : Bool) : Step Unit := do
  let frame ← get
  if reg.toNat + (if wide then 1 else 0) ≥ frame.registers.size then
    failAt .registerRange reg

def read (reg : UInt16) : Step Expr := do
  check reg false
  let frame ← get
  match frame.registers.getD reg.toNat none with
  | some id => return Expr.read id
  | none => failAt .undefinedRegister reg

def takesTwo (kind : Kind) : Bool := kind != .bottom && kind.inter .wide == kind

/-- Writing over the second half of a wide value leaves nothing of it. -/
def forgetBefore (r : Nat) : Step Unit := do
  if r > 0 then
    let frame ← get
    match frame.registers.getD (r - 1) none with
    | some previous => if takesTwo (frame.method.localType previous).kind then put (r - 1) none
    | none => pure ()

/-- Defines a new local and puts it into a register. A wide value leaves nothing in the next
register. -/
def write (reg : UInt16) (value : Expr) (type : Ty) : Step Unit := do
  let wide := takesTwo type.kind
  check reg wide
  let id ← newLocal type
  emit (.assign id value)
  let r := reg.toNat
  put r (some id)
  if wide then put (r + 1) none
  forgetBefore r

def operand (i : Dex.Instruction) (place : Nat) : Step UInt16 :=
  liftM (Outcome.ofOption i.regs[place]?)

def failWith {α : Type} (cause : Cause) (detail : Text) : Step α :=
  liftM (Outcome.failWith cause detail : Outcome α)

/-- Puts a value where the move of the result says; without such a move it is evaluated only. -/
def bindResult (value : Expr) (type : Ty) : Option Dex.Instruction → Step Unit
  | none => emit (.void value)
  | some move => do
    if move.op.code = 0x0b ∧ !type.kind.isWide then
      failWith .strayMoveResult ("move-result-wide of " ++ type.text)
    write (← operand move 0) value type

/-- Reads the arguments of a call; each takes the registers of its type. -/
def arguments (regs : List UInt16) : List Text → Step (List Expr)
  | [] => return []
  | param :: rest => do
    let reg ← liftM (Outcome.ofOption regs.head?)
    let value ← read reg
    return value :: (← arguments (regs.drop (Descriptor.slots param)) rest)

/-- The rest of a call once its receiver is read. -/
def callWith (ref : MethodRef) (kind : InvokeKind) (i : Dex.Instruction)
    (move : Option Dex.Instruction) (receiver : List Expr) : Step Unit := do
  let args ← arguments (i.regs.drop receiver.length) ref.proto.params
  let call := Expr.node (.invoke kind ref) (receiver ++ args)
  if ref.proto.result = "V" then
    if move.isSome then failWith .strayMoveResult (ref.text ++ " returns void")
    emit (.void call)
  else bindResult call (.ofDesc ref.proto.result) move

/-- A call. The registers must be as many as the prototype and the receiver take. -/
def invoke (file : Dex.File) (kind : InvokeKind) (i : Dex.Instruction)
    (move : Option Dex.Instruction) : Step Unit := do
  let ref ← liftM (file.method i.index)
  let hasReceiver := kind != .static
  let want := ref.proto.paramSlots + (if hasReceiver then 1 else 0)
  if i.regs.length ≠ want then
    failWith .invokeRegisters
      (ref.text ++ ": " ++ Text.ofNat i.regs.length ++ " registers, want " ++ Text.ofNat want)
  let receiver ← if hasReceiver then do pure [← read (← operand i 0)] else pure []
  callWith ref kind i move receiver

/-- The type of a narrow constant: zero may be null. -/
def narrowType (lit : Int64) : Ty :=
  if lit = 0 then { kind := .narrow ||| .ref } else { kind := .narrow }

/-- Reads two registers in order. -/
def read2 (i : Dex.Instruction) (first second : Nat) : Step (Expr × Expr) := do
  let left ← read (← operand i first)
  let right ← read (← operand i second)
  return (left, right)

/-- Defines the first register by an expression that names a class. -/
def writeClass (i : Dex.Instruction) (desc : Text) (head : Head) (args : List Expr) :
    Step Unit := do
  write (← operand i 0) (.node head args) (.refTo desc)

/-- Lowers one instruction. `move` is the move of its result, if that follows. -/
def instruction (file : Dex.File) (plan : Plan) (i : Dex.Instruction)
    (move : Option Dex.Instruction) : Step Unit := do
  let target (place : Nat) := operand i place
  let value (place : Nat) : Step Expr := do read (← operand i place)
  match meaning i.op with
  | .nop => return ()
  | .move wide =>
    let goal ← target 0
    let source ← target 1
    check goal wide
    check source wide
    put goal.toNat ((← get).registers.getD source.toNat none)
    if wide then put (goal.toNat + 1) none
  | .moveResult => liftM (Outcome.fail .strayMoveResult : Outcome Unit)
  | .moveException =>
    let goal ← target 0
    check goal false
    let id ← newLocal (.refTo throwableDesc)
    emit (.identity id (.leaf (.caught (.refTo throwableDesc) ∅)))
    put goal.toNat (some id)
  | .returnVoid => emit (.return none)
  | .returnValue => emit (.return (some (← value 0)))
  | .constNarrow =>
    let type := narrowType i.lit
    write (← target 0) (.number type i.lit.toUInt64.toUInt32.toUInt64) type
  | .constWide =>
    let type : Ty := { kind := .wide }
    write (← target 0) (.number type i.lit.toUInt64) type
  | .constString =>
    let text ← liftM (file.string i.index)
    write (← target 0) (.ofString text) .string
  | .constClass =>
    let desc ← liftM (file.type i.index)
    write (← target 0) (.ofClass desc) .class_
  | .monitor enter =>
    let object ← value 0
    emit (if enter then .monitorEnter object else .monitorExit object)
  | .checkCast =>
    let object ← value 0
    let desc ← liftM (file.type i.index)
    writeClass i desc (.cast desc) [object]
  | .instanceOf =>
    let object ← value 1
    let desc ← liftM (file.type i.index)
    write (← target 0) (.node (.instanceOf desc) [object]) { kind := .int, desc := "Z" }
  | .arrayLength =>
    let array ← value 1
    write (← target 0) (.node .arrayLength [array]) .int
  | .newInstance =>
    let desc ← liftM (file.type i.index)
    writeClass i desc (.new desc) []
  | .newArray =>
    let count ← value 1
    let desc ← liftM (file.type i.index)
    writeClass i desc (.newArray desc) [count]
  | .filledNewArray =>
    let desc ← liftM (file.type i.index)
    let elements ← i.regs.mapM read
    bindResult (.node (.arrayLiteral desc) elements) (.refTo desc) move
  | .fillArray =>
    let array ← value 0
    match i.payload with
    | some (.elements width elements) => emit (.fillArray array { width, elements })
    | _ => liftM (Outcome.crash : Outcome Unit)
  | .throw => emit (.throw (← value 0))
  | .goto => emit (.goto (plan.labelOf i.target))
  | .switch =>
    let selector ← value 0
    match i.payload with
    | some (.branches keys targets) =>
      emit (.switch selector keys (targets.map plan.labelOf)
        (plan.labelOf (i.addr + UInt32.ofNat i.size)))
    | _ => liftM (Outcome.crash : Outcome Unit)
  | .compare op type =>
    let (left, right) ← read2 i 1 2
    write (← target 0) (.binary op type left right) .int
  | .branch cond =>
    let (left, right) ← read2 i 0 1
    emit (.branch cond left (some right) (plan.labelOf i.target))
  | .branchZero cond =>
    let left ← value 0
    emit (.branch cond left none (plan.labelOf i.target))
  | .arrayGet type =>
    let (array, index) ← read2 i 1 2
    write (← target 0) (.node (.element type) [array, index]) type
  | .arrayPut type =>
    let (array, index) ← read2 i 1 2
    let stored ← value 0
    emit (.store (.node (.element type) [array, index]) stored)
  | .fieldGet =>
    let object ← value 1
    let ref ← liftM (file.field i.index)
    write (← target 0) (.node (.field ref false) [object]) (.ofDesc ref.type)
  | .fieldPut =>
    let (stored, object) ← read2 i 0 1
    let ref ← liftM (file.field i.index)
    emit (.store (.node (.field ref false) [object]) stored)
  | .staticGet =>
    let ref ← liftM (file.field i.index)
    write (← target 0) (.leaf (.field ref true)) (.ofDesc ref.type)
  | .staticPut =>
    let stored ← value 0
    let ref ← liftM (file.field i.index)
    emit (.store (.leaf (.field ref true)) stored)
  | .invoke kind => invoke file kind i move
  | .unary op type =>
    let operand ← value 1
    write (← target 0) (.unary op type operand) type
  | .convert source goal =>
    let operand ← value 1
    write (← target 0) (.conversion source goal operand) { kind := goal }
  | .binary op type =>
    let (left, right) ← read2 i 1 2
    write (← target 0) (.binary op type left right) type
  | .binaryInPlace op type =>
    let (left, right) ← read2 i 0 1
    write (← target 0) (.binary op type left right) type
  | .literal op reversed =>
    let operand ← value 1
    let literal := Expr.ofInt i.lit.toInt32
    write (← target 0)
      (if reversed then .binary op .int literal operand else .binary op .int operand literal) .int
  | .unsupported => failWith .unsupportedOpcode i.op.name

end Step

end DexLift.Lower
