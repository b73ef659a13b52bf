import DexLift.Dex.Tree
import DexLift.Lower.Instruction
import DexLift.Proofs.Ir.Machine

/-!
# Running Dalvik code

Code is run instruction by instruction over a file of registers, in the same
worlds as methods. A register holds a value or nothing. A wide value takes two
registers: it is kept in the first, the second holds nothing, and writing to the
second leaves nothing of the pair. The move of a result belongs to the
instruction in front of it. What throws inside a try goes to the first of the
try's handlers that takes it.

A run is stuck when it reads a register that holds nothing, or when control
leaves the instructions.
-/

namespace DexLift.Dalvik

open Ir List
open Lower (Meaning Source)

/-! ## The instruction set -/

def conditions : List Cond := [.eq, .ne, .lt, .ge, .gt, .le]

/-- The elements of arrays: ints and floats, longs and doubles, references, then the small ones. -/
def elements : List Ty :=
  [{ kind := .narrow }, { kind := .wide }, { kind := .ref }] ++
    ["Z", "B", "C", "S"].map fun desc => { kind := .int, desc }

def calls : List InvokeKind := [.virtual, .super, .direct, .static, .interface]

def numbers : List Kind := [.int, .long, .float, .double]

def operators : List Op := [.add, .sub, .mul, .div, .rem, .and, .or, .xor, .shl, .shr, .ushr]

/-- All operators work on ints and longs, the first five on floats and doubles. -/
def arithmetic (meaning : Op → Ty → Meaning) : List Meaning :=
  [(.int, 11), (.long, 11), (.float, 5), (.double, 5)].flatMap fun (kind, count) =>
    (operators.take count).map (meaning · { kind })

/-- Operators with a literal; subtraction is from it. -/
def literals : List Meaning := operators.map fun op => .literal op (op == .sub)

/-- The instruction set in rows: a first opcode, and what it and the ones behind it do. -/
def rows : List (Nat × List Meaning) := [
  (0x00, [.nop]),
  (0x01, replicate 3 (.move false) ++ replicate 3 (.move true) ++ replicate 3 (.move false)),
  (0x0a, replicate 3 .moveResult ++ [.moveException, .returnVoid] ++ replicate 3 .returnValue),
  (0x12, replicate 4 .constNarrow ++ replicate 4 .constWide),
  (0x1a, [.constString, .constString, .constClass, .monitor true, .monitor false, .checkCast,
    .instanceOf, .arrayLength, .newInstance, .newArray, .filledNewArray, .filledNewArray,
    .fillArray, .throw, .goto, .goto, .goto, .switch, .switch]),
  (0x2d, [.compare .cmpl { kind := .float }, .compare .cmpg { kind := .float },
    .compare .cmpl { kind := .double }, .compare .cmpg { kind := .double },
    .compare .cmp { kind := .long }]),
  (0x32, conditions.map .branch ++ conditions.map .branchZero),
  (0x44, elements.map .arrayGet ++ elements.map .arrayPut),
  (0x52, replicate 7 .fieldGet ++ replicate 7 .fieldPut),
  (0x60, replicate 7 .staticGet ++ replicate 7 .staticPut),
  (0x6e, calls.map .invoke),
  (0x74, calls.map .invoke),
  (0x7b, [.unary .neg .int, .unary .not .int, .unary .neg { kind := .long },
    .unary .not { kind := .long }, .unary .neg { kind := .float },
    .unary .neg { kind := .double }]),
  (0x81, numbers.flatMap fun source => (numbers.erase source).map (.convert source)),
  (0x8d, [.unary .toByte .int, .unary .toChar .int, .unary .toShort .int]),
  (0x90, arithmetic .binary),
  (0xb0, arithmetic .binaryInPlace),
  (0xd0, literals.take 8),
  (0xd8, literals)]

def instructionSet (op : Dex.Opcode) : Meaning :=
  (rows.findSome? fun (first, meanings) =>
    if first ≤ op.code.toNat then meanings[op.code.toNat - first]? else none).getD .unsupported

@[simp] theorem instructionSet_eq (op : Dex.Opcode) : instructionSet op = Lower.meaning op := by
  have all : ∀ code : Fin 256, instructionSet ⟨⟨⟨code⟩⟩⟩ = Lower.meaning ⟨⟨⟨code⟩⟩⟩ := by
    decide +kernel
  exact all op.code.toFin

/-- Narrow constants are ints or floats; zero is a reference as well. -/
def constantType (lit : Int64) : Ty :=
  { kind := ⟨Kind.int.bits ||| Kind.float.bits ||| if lit = 0 then Kind.ref.bits else 0⟩ }

@[simp] theorem constantType_eq (lit : Int64) : constantType lit = Lower.Step.narrowType lit := by
  unfold constantType Lower.Step.narrowType
  split <;> rfl

/-- The kinds of values that take two registers. -/
def isPair (kind : Kind) : Bool := kind ∈ [.long, .double, .wide]

/-- Calls and filled new arrays have a result that can be moved. -/
def hasResult (op : Dex.Opcode) : Bool :=
  op.code.toNat ∈ [0x24, 0x25] ++ range' 0x6e 5 ++ range' 0x74 5 ++ range' 0xfa 4

def isMoveResult (op : Dex.Opcode) : Bool := op.code.toNat ∈ [0x0a, 0x0b, 0x0c]

/-! ## Operations -/

inductive Operand where
  | register (r : Nat)
  | literal (n : Int32)

/-- What an instruction does with registers; the encoding no longer matters. -/
inductive Operation where
  | nop
  | copy (wide : Bool) (goal source : Nat)
  /-- Takes the exception a handler was entered with. -/
  | receive (goal : Nat)
  | define (goal : Nat) (type : Ty) (head : Head) (operands : List Operand)
  /-- Computes what nobody takes. -/
  | discard (head : Head) (operands : List Operand)
  | store (place : Head) (operands : List Operand) (value : Nat)
  | fill (array : Nat) (data : FillData)
  | monitor (enter : Bool) (object : Nat)
  | branch (cond : Cond) (left : Nat) (right : Option Nat) (target : UInt32)
  | goto (target : UInt32)
  | switch (value : Nat) (keys : List Int32) (targets : List UInt32)
  | return (value : Option Nat)
  | throw (value : Nat)

def argumentRegisters (regs : List UInt16) : List Text → Option (List Nat)
  | [] => some []
  | param :: rest => do
    let first ← regs.head?
    return first.toNat :: (← argumentRegisters (regs.drop (Descriptor.slots param)) rest)

/-- A result goes to the register that the move behind the instruction names. -/
def resultTo (move : Option Dex.Instruction) (type : Ty) (head : Head) (operands : List Operand) :
    Option Operation :=
  match move with
  | none => some (.discard head operands)
  | some move => do return .define (← move.regs.head?).toNat type head operands

/-- A call; the receiver comes first unless the call is static. -/
def callOf (file : Dex.File) (kind : InvokeKind) (i : Dex.Instruction)
    (move : Option Dex.Instruction) : Option Operation := do
  let ref ← (file.method i.index).toOption
  let receiver ← if kind != .static then i.regs.head?.map fun r => [r.toNat] else some []
  let args ← argumentRegisters (i.regs.drop receiver.length) ref.proto.params
  let operands := (receiver ++ args).map Operand.register
  if ref.proto.result = "V" then return .discard (.invoke kind ref) operands
  else resultTo move (.ofDesc ref.proto.result) (.invoke kind ref) operands

/-- What an instruction does, together with the move of its result. An instruction whose operands
are missing does nothing that could be told. -/
def operation? (file : Dex.File) (i : Dex.Instruction) (move : Option Dex.Instruction) :
    Option Operation :=
  let reg (place : Nat) : Option Nat := i.regs[place]?.map UInt16.toNat
  let define (type : Ty) (head : Head) (operands : List Operand) : Option Operation := do
    return .define (← reg 0) type head operands
  match instructionSet i.op with
  | .nop => some .nop
  | .move wide => do return .copy wide (← reg 0) (← reg 1)
  | .moveResult => none
  | .moveException => do return .receive (← reg 0)
  | .returnVoid => some (.return none)
  | .returnValue => do return .return (some (← reg 0))
  | .constNarrow =>
    let type := constantType i.lit
    define type (.const type (.number i.lit.toUInt64.toUInt32.toUInt64)) []
  | .constWide => define { kind := .wide } (.const { kind := .wide } (.number i.lit.toUInt64)) []
  | .constString => do
    define .string (.const .string (.string (← (file.string i.index).toOption))) []
  | .constClass => do define .class_ (.const .class_ (.class (← (file.type i.index).toOption))) []
  | .monitor enter => do return .monitor enter (← reg 0)
  | .checkCast => do
    let desc ← (file.type i.index).toOption
    define (.refTo desc) (.cast desc) [.register (← reg 0)]
  | .instanceOf => do
    let desc ← (file.type i.index).toOption
    define { kind := .int, desc := "Z" } (.instanceOf desc) [.register (← reg 1)]
  | .arrayLength => do define .int .arrayLength [.register (← reg 1)]
  | .newInstance => do
    let desc ← (file.type i.index).toOption
    define (.refTo desc) (.new desc) []
  | .newArray => do
    let desc ← (file.type i.index).toOption
    define (.refTo desc) (.newArray desc) [.register (← reg 1)]
  | .filledNewArray => do
    let desc ← (file.type i.index).toOption
    resultTo move (.refTo desc) (.arrayLiteral desc) (i.regs.map fun r => .register r.toNat)
  | .fillArray =>
    match i.payload with
    | some (.elements width elements) => do return .fill (← reg 0) { width, elements }
    | _ => none
  | .throw => do return .throw (← reg 0)
  | .goto => some (.goto i.target)
  | .switch =>
    match i.payload with
    | some (.branches keys targets) => do return .switch (← reg 0) keys targets
    | _ => none
  | .compare op type => do
    define .int (.binary op type) [.register (← reg 1), .register (← reg 2)]
  | .branch cond => do return .branch cond (← reg 0) (some (← reg 1)) i.target
  | .branchZero cond => do return .branch cond (← reg 0) none i.target
  | .arrayGet type => do
    define type (.element type) [.register (← reg 1), .register (← reg 2)]
  | .arrayPut type => do
    return .store (.element type) [.register (← reg 1), .register (← reg 2)] (← reg 0)
  | .fieldGet => do
    let ref ← (file.field i.index).toOption
    define (.ofDesc ref.type) (.field ref false) [.register (← reg 1)]
  | .fieldPut => do
    let ref ← (file.field i.index).toOption
    return .store (.field ref false) [.register (← reg 1)] (← reg 0)
  | .staticGet => do
    let ref ← (file.field i.index).toOption
    define (.ofDesc ref.type) (.field ref true) []
  | .staticPut => do
    let ref ← (file.field i.index).toOption
    return .store (.field ref true) [] (← reg 0)
  | .invoke kind => callOf file kind i move
  | .unary op type => do define type (.unary op type .bottom) [.register (← reg 1)]
  | .convert source goal => do
    define { kind := goal } (.unary .convert { kind := source } goal) [.register (← reg 1)]
  | .binary op type => do
    define type (.binary op type) [.register (← reg 1), .register (← reg 2)]
  | .binaryInPlace op type => do
    define type (.binary op type) [.register (← reg 0), .register (← reg 1)]
  | .literal op reversed => do
    let operand := Operand.register (← reg 1)
    let literal := Operand.literal i.lit.toInt32
    define .int (.binary op .int) (if reversed then [literal, operand] else [operand, literal])
  | .unsupported => none

/-! ## Registers -/

/-- The values of registers, each with a mark when it takes the next register too. -/
abbrev RegisterFile (V : Type) := Nat → Option (V × Bool)

section Execution

variable {V : Type} (w : World V)

/-- Writes a value. A wide one leaves nothing in the next register; a wide one whose second register
is written over is gone. -/
def RegisterFile.write (regs : RegisterFile V) (r : Nat) (v : V) (wide : Bool) : RegisterFile V :=
  fun other =>
    if other = r then some (v, wide)
    else if wide ∧ other = r + 1 then none
    else if other + 1 = r ∧ (regs other).any Prod.snd then none
    else regs other

def RegisterFile.read (regs : RegisterFile V) (r : Nat) : Option V := (regs r).map Prod.fst

def Operand.read (regs : RegisterFile V) : Operand → Option V
  | .register r => regs.read r
  | .literal n => some (w.value (.const .int (.number n.toInt64.toUInt64)) [])

/-! ## Instructions -/

/-- Where control goes after an instruction. -/
inductive Move (V : Type) where
  | next
  | jump (addr : UInt32)
  | raise (x : V)
  | finish (v : Option V)

/-- A run at some instruction. -/
structure State (V : Type) where
  index : Nat
  regs : RegisterFile V
  /-- The exception a handler was entered with. -/
  caught : Option V
  history : History V

/-- What a node gives on some values. -/
def apply (history : History V) (head : Head) (values : List V) : History V × Except V V :=
  if head.throws then w.ask history (.evaluate head) values
  else (history, .ok (w.value head values))

/-- Makes a request whose answer nobody reads. -/
def State.request (s : State V) (request : Request) (values : List V) :
    History V × RegisterFile V × Move V :=
  match w.ask s.history request values with
  | (history, .ok _) => (history, s.regs, .next)
  | (history, .error x) => (history, s.regs, .raise x)

/-- What an operation does with the registers, and where control goes. -/
def State.perform (s : State V) : Operation → Option (History V × RegisterFile V × Move V)
  | .nop => some (s.history, s.regs, .next)
  | .copy wide goal source =>
    (s.regs.read source).map fun v => (s.history, s.regs.write goal v wide, .next)
  | .receive goal => s.caught.map fun x => (s.history, s.regs.write goal x false, .next)
  | .define goal type head operands =>
    (operands.mapM (Operand.read w s.regs)).map fun values =>
      match apply w s.history head values with
      | (history, .ok v) => (history, s.regs.write goal v (isPair type.kind), .next)
      | (history, .error x) => (history, s.regs, .raise x)
  | .discard head operands =>
    (operands.mapM (Operand.read w s.regs)).map fun values =>
      match apply w s.history head values with
      | (history, .ok _) => (history, s.regs, .next)
      | (history, .error x) => (history, s.regs, .raise x)
  | .store place operands value => do
    let values ← operands.mapM (Operand.read w s.regs)
    let stored ← s.regs.read value
    return s.request w (.store place) (values ++ [stored])
  | .fill array data => (s.regs.read array).map fun v => s.request w (.fill data) [v]
  | .monitor enter object => (s.regs.read object).map fun v => s.request w (.monitor enter) [v]
  | .branch cond left right target => do
    let v ← s.regs.read left
    match right with
    | none => return (s.history, s.regs, if w.holds cond v none then .jump target else .next)
    | some right =>
      let u ← s.regs.read right
      return (s.history, s.regs, if w.holds cond v (some u) then .jump target else .next)
  | .goto target => some (s.history, s.regs, .jump target)
  | .switch value keys targets =>
    (s.regs.read value).map fun v =>
      (s.history, s.regs,
        ((keys.zip targets).find? fun k => k.1 == w.key v).elim .next fun k => .jump k.2)
  | .return none => some (s.history, s.regs, .finish none)
  | .return (some value) =>
    (s.regs.read value).map fun v => (s.history, s.regs, .finish (some v))
  | .throw value =>
    (s.regs.read value).map fun v =>
      match w.ask s.history .throw [v] with
      | (history, .ok x) => (history, s.regs, .raise x)
      | (history, .error x) => (history, s.regs, .raise x)

variable (file : Dex.File) (source : Source)

/-- The handlers for what is thrown at an address, in the order in which they are tried. -/
def handlersAt (addr : UInt32) : List Dex.Handler :=
  (source.tries.filter fun t => t.start ≤ addr && addr < t.stop).flatMap Dex.Try.handlers

/-- Goes on at the instruction of an address. -/
def State.goTo (s : State V) (addr : UInt32) : Status (State V) V :=
  (source.instructions.findIdx? fun i => i.addr == addr).elim .stuck fun index =>
    .running { s with index }

theorem State.goTo_eq (s : State V) (addr : UInt32) : s.goTo source addr =
    (source.indexOf? addr).elim .stuck fun index => .running { s with index } := rfl

def resultMove (index : Nat) : Option Dex.Instruction :=
  source.instructions[index + 1]?.filter fun next =>
    hasResult (source.at_ index).op && isMoveResult next.op

theorem resultMove_eq_ite (index : Nat) : resultMove source index =
    if source.pairsWithResult index then some (source.at_ (index + 1)) else none := by
  have all : ∀ code : Fin 256, let op : Dex.Opcode := ⟨⟨⟨code⟩⟩⟩
      hasResult op = (op.isInvoke || op.within 0x24 0x25) ∧
        isMoveResult op = op.isMoveResult := by decide +kernel
  have gives : ∀ op, hasResult op = (op.isInvoke || op.within 0x24 0x25) :=
    fun op => (all op.code.toFin).1
  have takes : ∀ op, isMoveResult op = op.isMoveResult := fun op => (all op.code.toFin).2
  unfold resultMove Source.pairsWithResult
  by_cases inside : index + 1 < source.instructions.size
  · simp [Source.at_, inside, gives, takes, Option.filter]
  · simp [inside]

def State.step (s : State V) : Status (State V) V :=
  match source.instructions[s.index]? with
  | none => .stuck
  | some i =>
    match (operation? file i (resultMove source s.index)).bind (s.perform w) with
    | none => .stuck
    | some (history, regs, move) =>
      match move with
      | .next =>
        let next := if (resultMove source s.index).isSome then s.index + 2 else s.index + 1
        .running { index := next, regs, caught := none, history }
      | .jump addr => { s with regs, caught := none, history }.goTo source addr
      | .finish v => .returned v history
      | .raise x =>
        match (handlersAt source i.addr).find? fun h => w.catches h.type x with
        | some h => { s with caught := some x, history }.goTo source h.addr
        | none => .uncaught x history

/-- One step of a run; an ended run stays as it is. -/
def Status.step : Status (State V) V → Status (State V) V
  | .running s => s.step w file source
  | status => status

def placeArguments : List (Text × Nat) → (reg : Nat) → RegisterFile V → RegisterFile V
  | [], _, regs => regs
  | (desc, index) :: rest, reg, regs =>
    placeArguments rest (reg + Descriptor.slots desc)
      (regs.write reg (w.param index) (isPair (Ty.ofDesc desc).kind))

/-- The registers at the beginning: the receiver and the arguments come in the last ones. -/
def initialRegisters (ref : MethodRef) (isStatic : Bool) (code : Dex.Code) : RegisterFile V :=
  let want := ref.proto.paramSlots + (if isStatic then 0 else 1)
  let first := code.registers.toNat - want
  let empty : RegisterFile V := fun _ => none
  if isStatic then placeArguments w ref.proto.params.zipIdx first empty
  else placeArguments w ref.proto.params.zipIdx (first + 1) (empty.write first w.receiver false)

def run (method : Dex.Method) (code : Dex.Code) : Nat → Status (State V) V
  | 0 => .running
    { index := 0, regs := initialRegisters w method.ref method.access.isStatic code, caught := none
      history := [] }
  | n + 1 => Status.step w file (Source.ofCode code) (run method code n)

end Execution

end DexLift.Dalvik
