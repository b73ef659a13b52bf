import DexLift.Hierarchy
import DexLift.Ir.Method
import DexLift.Jvm.Assembler

/-!
# Code for expressions

The value of an expression is computed on the operand stack, operands from left
to right. The opcodes of one operation follow each other in the order int, long,
float, double, so that a family and a kind give the opcode.
-/

namespace DexLift.Ir

open Jvm (Asm Opcode)

/-- The place of a kind in families of opcodes. -/
def Kind.family (k : Kind) : Nat :=
  if k = .long then 1 else if k = .float then 2 else if k = .double then 3 else 0

def Op.binaryOpcode (op : Op) (k : Kind) : Opcode :=
  let long := if k = .long then 1 else 0
  match op with
  | .add => Opcode.iadd.plus k.family
  | .sub => Opcode.iadd.plus (4 + k.family)
  | .mul => Opcode.iadd.plus (8 + k.family)
  | .div => Opcode.iadd.plus (12 + k.family)
  | .rem => Opcode.iadd.plus (16 + k.family)
  | .shl => Opcode.ishl.plus long
  | .shr => Opcode.ishl.plus (2 + long)
  | .ushr => Opcode.ishl.plus (4 + long)
  | .and => Opcode.iand.plus long
  | .or => Opcode.iand.plus (2 + long)
  | .xor => Opcode.iand.plus (4 + long)
  | .cmp => .lcmp
  | .cmpl => if k = .double then .dcmpl else .fcmpl
  | .cmpg => if k = .double then Opcode.dcmpl.plus 1 else Opcode.fcmpl.plus 1
  | .neg | .not | .convert | .toByte | .toChar | .toShort => .nop

/-- The opcode that converts between two different kinds of numbers. From each kind there are three.
-/
def Kind.conversion (source target : Kind) : Opcode :=
  let place := if target.family > source.family then target.family - 1 else target.family
  Opcode.i2l.plus (3 * source.family + place)

/-- Pushes a constant. A number whose kind is open is an int if it can be. -/
def Constant.push (type : Ty) : Constant → Asm Unit
  | .string text => Asm.string text
  | .class desc => Asm.classConst (Descriptor.className desc)
  | .number bits =>
    if type.kind = .ref then Asm.null
    else if type.kind = .float then Asm.float bits.toUInt32
    else if type.kind = .double then Asm.double bits
    else if type.kind.meets .int then Asm.int bits.toUInt32.toInt32
    else if type.kind.meets .long then Asm.long bits
    else Asm.null

/-- Ends with a failure of code generation. -/
def cannotEmit {α : Type} (cause : Cause) (detail : Text) : Asm α :=
  Asm.lift (Outcome.failWith cause detail)

/-- Applies a unary operation to the value on top of the stack. -/
def Op.applyUnary (op : Op) (k target : Kind) : Asm Unit :=
  match op with
  | .neg => Asm.op (Opcode.ineg.plus k.family)
  | .not => do
    if k = .long then
      Asm.long (-1)
      Asm.op .lxor
    else
      Asm.int (-1)
      Asm.op .ixor
  | .convert => if k = target then pure () else Asm.op (k.conversion target)
  | .toByte => Asm.op .i2b
  | .toChar => Asm.op .i2c
  | .toShort => Asm.op .i2s
  | op => cannotEmit .notEmittable ("unary " ++ Text.ofString op.text)

namespace Method

def slotOf (m : Method) (id : LocalId) : Asm Nat :=
  match (m.local_ id).slot with
  | some slot => pure slot
  | none => cannotEmit .noSlot ("a" ++ Text.ofNat id)

def loadLocal (m : Method) (id : LocalId) : Asm Unit := do
  let slot ← m.slotOf id
  Asm.load (m.localType id).descriptor slot

/-- Pops the value on top of the stack into a local. -/
def storeLocal (m : Method) (id : LocalId) : Asm Unit := do
  let slot ← m.slotOf id
  Asm.store (m.localType id).descriptor slot

/-- The kind an operation with a first operand works on. -/
def operandKind (m : Method) (type : Ty) (operand : Expr) : Kind :=
  if type.isConcrete && type.kind != .ref then type.kind
  else
    let k := (m.exprType operand).kind
    if k.isConcrete then k else .int

/-- The element descriptor of an array access: from the type of the array when it is known, else
from the type of the access or of the value that is stored. -/
def accessedDesc (m : Method) (array : Expr) (type : Ty) (stored : Option Expr) : Text :=
  let known := elementDesc (m.exprType array).desc
  if !known.isEmpty then known
  else
    let t := match stored with
      | some value => if type.isConcrete then type else m.exprType value
      | none => type
    if t.kind = .ref || (!t.isConcrete && t.kind.meets .ref && !t.kind.meets .narrow) then
      objectDesc
    else if t.kind = .float then "F"
    else if t.kind = .double then "D"
    else if t.kind.meets .long then "J"
    else if t.kind = .int ∧ ¬ t.desc.isEmpty then t.desc
    else "I"

end Method

/-- Calls a method. A virtual call on an interface is an interface call. -/
def InvokeKind.call (kind : InvokeKind) (h : Option Hierarchy) (method : MethodRef) : Asm Unit :=
  let onInterface := h.any (·.isInterface method.owner)
  let opcode : Opcode := match kind with
    | .virtual => if onInterface then .invokeinterface else .invokevirtual
    | .interface => .invokeinterface
    | .static => .invokestatic
    | .super | .direct => .invokespecial
  Asm.invoke opcode (Descriptor.className method.owner) method.name method.desc onInterface

/-- Calls a constructor on the object below the arguments. -/
def callConstructor (desc : Text) (method : MethodRef) : Asm Unit :=
  Asm.invoke .invokespecial (Descriptor.className desc) "<init>" method.desc false

/-- Reads or writes a field. -/
def accessField (opcode : Opcode) (ref : FieldRef) : Asm Unit :=
  Asm.field opcode (Descriptor.className ref.owner) ref.name ref.type

def startArray (element : Text) (count : Nat) : Asm Unit := do
  Asm.int (Int32.ofNat count)
  Asm.newArray element

/-- The array on the stack once more, and the index of an element. -/
def startElement (index : Nat) : Asm Unit := do
  Asm.op .dup
  Asm.int (Int32.ofNat index)

mutual

def Method.push (m : Method) (h : Option Hierarchy) : Expr → Asm Unit
  | .node head args =>
    match head with
    | .missing => Asm.lift Outcome.crash
    | .const type value => value.push type
    | .read id => m.loadLocal id
    | .binary op type => do
      m.pushAll h args
      Asm.op (op.binaryOpcode (m.operandKind type (args.headD .missing)))
    | .unary op type target => do
      m.pushAll h args
      op.applyUnary (m.operandKind type (args.headD .missing)) target
    | .field ref isStatic => do
      if isStatic then accessField .getstatic ref
      else
        m.pushAll h args
        accessField .getfield ref
    | .element type => do
      m.pushAll h args
      Asm.arrayLoad (m.accessedDesc (args.headD .missing) type none)
    | .arrayLength => do
      m.pushAll h args
      Asm.op .arraylength
    | .instanceOf desc => do
      m.pushAll h args
      Asm.typeOp .instanceof (Descriptor.className desc)
    | .cast desc => do
      m.pushAll h args
      Asm.typeOp .checkcast (Descriptor.className desc)
    | .invoke kind method => do
      m.pushAll h args
      kind.call h method
    | .new desc => cannotEmit .unpairedNew ("new " ++ desc)
    | .construct desc method => do
      Asm.typeOp .new (Descriptor.className desc)
      Asm.op .dup
      m.pushAll h args
      callConstructor desc method
    | .newArray desc => do
      m.pushAll h args
      Asm.newArray (elementDesc desc)
    | .arrayLiteral desc => do
      startArray (elementDesc desc) args.length
      m.pushElements h (elementDesc desc) 0 args
    | .multiArray desc => do
      m.pushAll h args
      Asm.multiArray desc args.length
    | .caught .. | .this | .param _ =>
      cannotEmit .notEmittable (head.word ++ " in expression position")

def Method.pushAll (m : Method) (h : Option Hierarchy) : List Expr → Asm Unit
  | [] => pure ()
  | e :: rest => do
    m.push h e
    m.pushAll h rest

def Method.pushElements (m : Method) (h : Option Hierarchy) (element : Text) :
    (index : Nat) → List Expr → Asm Unit
  | _, [] => pure ()
  | index, e :: rest => do
    startElement index
    m.push h e
    Asm.arrayStore element
    m.pushElements h element (index + 1) rest

end

/-!
## Code for statements

Labels of the method become labels of the code when they are first met.
-/

open Jvm (Asm CodeLabel Opcode)

abbrev CodeLabels := Std.HashMap Label CodeLabel

abbrev Emit := StateT CodeLabels Asm

def Label.resolve (l : Label) : Emit CodeLabel := do
  match (← get)[l]? with
  | some code => return code
  | none =>
    let code ← Asm.newLabel
    modify fun labels => labels.insert l code
    return code

/-- Whether a tested operand is the zero or null that conditional branches compare with. -/
def Expr.isTestedZero (e : Expr) : Bool := e.isZero && e.ownType.kind.meets (.int ||| .ref)

/-- The letter that elements of a width in bytes have; empty for other widths. -/
def widthDesc (width : Nat) : Text :=
  if width = 1 then "B" else if width = 2 then "S" else if width = 4 then "I"
  else if width = 8 then "J" else ∅

/-- Pushes an element of array contents for an element type, given by its first letter. -/
def pushContent (letter : UInt8) (v : Int64) : Asm Unit :=
  if letter = 70 then Asm.float v.toUInt64.toUInt32
  else if letter = 68 then Asm.double v.toUInt64
  else if letter = 74 then Asm.long v.toUInt64
  else if letter = 67 then Asm.int v.toUInt64.toUInt16.toUInt32.toInt32
  else if letter = 66 ∨ letter = 90 then Asm.int v.toInt8.toInt32
  else if letter = 83 then Asm.int v.toInt16.toInt32
  else Asm.int v.toInt32

def pushContents (element : Text) : (index : Nat) → List Int64 → Asm Unit
  | _, [] => pure ()
  | index, v :: rest => do
    startElement index
    pushContent (← Asm.firstOf element) v
    Asm.arrayStore element
    pushContents element (index + 1) rest

namespace Method

/-- Whether an operand of a branch is a reference. -/
def isReference (m : Method) (e : Expr) : Bool :=
  if e.isConst then !e.isNumber || e.ownType.kind == .ref else (m.exprType e).kind == .ref

def fill (m : Method) (h : Option Hierarchy) (array : Expr) (data : FillData) : Asm Unit := do
  m.push h array
  let known := elementDesc (m.exprType array).desc
  pushContents (if known.isEmpty then widthDesc data.width else known) 0 data.elements
  Asm.op .pop

/-- Whether copying a local leaves everything as it is, because both share a slot and a kind. -/
def copiesInPlace (m : Method) (target source : LocalId) : Bool :=
  (m.local_ source).slot == (m.local_ target).slot && (m.local_ source).slot.isSome &&
    (m.localType source).kind == (m.localType target).kind

/-- The amount an assignment adds to an int in place, when it does nothing else. -/
def increment? (m : Method) (target : LocalId) (e : Expr) : Option Int :=
  let amount? (negated : Bool) (type : Ty) (x c : Expr) : Option Int :=
    match x.local?, c.bits? with
    | some source, some _ =>
      let amount := if negated then -c.int32.toInt else c.int32.toInt
      if type.kind = .int ∧ m.localType target = .int ∧
          (m.local_ source).slot = (m.local_ target).slot ∧ -32768 ≤ amount ∧ amount ≤ 32767 then
        some amount
      else none
    | _, _ => none
  match e with
  | .node (.binary .add type) [x, c] =>
    if x.isConst then amount? false type c x else amount? false type x c
  | .node (.binary .sub type) [x, c] => amount? true type x c
  | _ => none

def assign (m : Method) (h : Option Hierarchy) (target : LocalId) (e : Expr) : Asm Unit := do
  if (e.local?.map (m.copiesInPlace target)).getD false then return
  match m.increment? target e with
  | some amount =>
    let slot : Int := match (m.local_ target).slot with
      | some slot => slot
      | none => -1
    Asm.increment slot amount
  | none =>
    m.push h e
    m.storeLocal target

def storeTo (m : Method) (h : Option Hierarchy) (place value : Expr) : Asm Unit :=
  match place.head with
  | .field ref isStatic => do
    m.pushAll h (if isStatic then [value] else place.args ++ [value])
    accessField (if isStatic then .putstatic else .putfield) ref
  | .element type => do
    m.pushAll h (place.args ++ [value])
    Asm.arrayStore (m.accessedDesc (place.arg 0) type (some value))
  | .missing => Asm.lift Outcome.crash
  | head => cannotEmit .notEmittable ("store to " ++ Text.ofString head.word)

/-- Drops the value of an expression from the stack. -/
def discard (m : Method) (e : Expr) : Asm Unit :=
  match e.head with
  | .invoke _ method =>
    if method.proto.result = "V" then pure ()
    else if (m.exprType e).kind.isWide then Asm.op .pop2 else Asm.op .pop
  | _ => if (m.exprType e).kind.isWide then Asm.op .pop2 else Asm.op .pop

/-- Compares and jumps. Zero is best on the right, where the comparison needs no operand for it. -/
def jumpIf (m : Method) (h : Option Hierarchy) (cond : Cond) (left : Expr) (right : Option Expr)
    (target : Label) : Emit Unit := do
  let (cond, left, right) := match right with
    | some other =>
      if left.isTestedZero && !other.isTestedZero then (cond.swap, other, some left)
      else (cond, left, some other)
    | none => (cond, left, none)
  let ofReferences := m.isReference left || right.any m.isReference
  let target ← target.resolve
  match right.filter fun e => !e.isTestedZero with
  | none =>
    m.push h left
    Asm.jump
      (if !ofReferences then Opcode.ifeq.plus cond.index
       else if cond = .ne then .ifnonnull else .ifnull) target
  | some other =>
    m.pushAll h [left, other]
    Asm.jump ((if ofReferences then Opcode.ifAcmpeq else .ifIcmpeq).plus cond.index) target

/-- The code of one statement that is no label. -/
def emitAction (m : Method) (h : Option Hierarchy) : Action → Emit Unit
  | .assign target e => m.assign h target e
  | .identity target e => do
    if (Action.identity target e).isCaught then
      cannotEmit .notEmittable
        ("caught identity a" ++ Text.ofNat target ++ " outside a handler entry")
  | .phi target _ => cannotEmit .phiLeft ("a" ++ Text.ofNat target)
  | .store place value => m.storeTo h place value
  | .fillArray array data => m.fill h array data
  | .branch cond left right target => m.jumpIf h cond left right target
  | .goto target => do Asm.jump .goto (← target.resolve)
  | .switch e keys targets default => do
    m.push h e
    let targets ← targets.mapM Label.resolve
    Asm.switch keys targets (← default.resolve)
  | .return none => Asm.return_ "V"
  | .return (some e) => do
    m.push h e
    Asm.return_ m.result
  | .throw e => do
    m.push h e
    Asm.op .athrow
  | .monitorEnter e => do
    m.push h e
    Asm.op .monitorenter
  | .monitorExit e => do
    m.push h e
    Asm.op .monitorexit
  | .void e => do
    m.push h e
    m.discard e
  | .nop | .label _ => pure ()

end Method

end DexLift.Ir
