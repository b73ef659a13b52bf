import DexLift.Ir.Method

/-!
# What operands are expected to be

Every consumer of a value expects a type: a call the parameter type, a store
the type of the place, arithmetic the type of the operation. Expectations are
listed, or used to change operands from the innermost out.
-/

namespace DexLift.Ir

/-- The array type that elements of a type are read from; an unresolved element expects any
reference. -/
def arrayOf (element : Ty) : Ty :=
  if element.isConcrete && !element.isNull then .refTo ("[" ++ element.descriptor) else .null

/-- Whether the right operand of an operator counts bits to shift by. -/
def Op.isShift (op : Op) : Bool := op == .shl || op == .shr || op == .ushr

/-- Whether an operator cuts an int down. -/
def Op.narrows (op : Op) : Bool := op == .toByte || op == .toChar || op == .toShort

/-- The type each argument of a call is expected to have; arguments beyond the parameters expect
none. -/
def argumentTypes (params : List Text) (count : Nat) : List (Option Ty) :=
  (List.range count).map fun i => params[i]?.map .ofDesc

/-- The type each operand of an expression is expected to have; none for what is not an operand. -/
def Method.expected (m : Method) (e : Expr) : List (Option Ty) :=
  let count := e.args.length
  match e.head with
  | .binary op type => [some type, some (if op.isShift then .int else type)]
  | .unary op type _ => [some (if op.narrows then .int else type)]
  | .field ref isStatic => if isStatic then [] else [some (.refTo ref.owner)]
  | .element _ => [some (arrayOf (m.exprType e)), some .int]
  | .arrayLength | .instanceOf _ | .cast _ => [some .object]
  | .invoke kind method =>
    if kind = .static then argumentTypes method.proto.params count
    else some (.refTo method.owner) :: argumentTypes method.proto.params (count - 1)
  | .construct _ method => argumentTypes method.proto.params count
  | .newArray _ | .multiArray _ => List.replicate count (some .int)
  | .arrayLiteral desc => List.replicate count (some (.ofDesc (elementDesc desc)))
  | _ => []

structure Operand where
  expr : Expr
  expected : Ty

mutual

/-- The operands of an expression, outermost first. -/
def Method.operandsIn (m : Method) : Expr → List Operand
  | .node head args => m.operandsOf (m.expected (.node head args)) args

/-- The operands among several expressions with their expectations. -/
def Method.operandsOf (m : Method) : List (Option Ty) → List Expr → List Operand
  | some want :: wants, e :: rest => ⟨e, want⟩ :: m.operandsIn e ++ m.operandsOf wants rest
  | none :: wants, _ :: rest => m.operandsOf wants rest
  | _, _ => []

end

mutual

/-- Changes every operand of an expression, the innermost first. -/
def Method.mapOperandsIn (m : Method) (change : Expr → Ty → Expr) : Expr → Expr
  | .node head args =>
    .node head (m.mapOperandsOf change (m.expected (.node head args)) args)

/-- Changes the operands among several expressions with their expectations. -/
def Method.mapOperandsOf (m : Method) (change : Expr → Ty → Expr) :
    List (Option Ty) → List Expr → List Expr
  | some want :: wants, e :: rest =>
    change (m.mapOperandsIn change e) want :: m.mapOperandsOf change wants rest
  | none :: wants, e :: rest => e :: m.mapOperandsOf change wants rest
  | _, rest => rest

end

/-- The type the tested values of a branch are expected to have. -/
def Cond.expected (cond : Cond) : Ty :=
  if cond = .eq ∨ cond = .ne then { kind := .int ||| .ref } else .int

/-- The type a stored value is expected to have; none when the place is no place. -/
def Method.storedType (m : Method) (place : Expr) : Option Ty :=
  match place.head with
  | .field ref _ => some (.ofDesc ref.type)
  | .element _ => some (m.exprType place)
  | _ => none

/-- The operands of a statement, outermost first. What is assigned or evaluated as a whole is not an
operand, but its own operands are. -/
def Method.operands (m : Method) (action : Action) : List Operand :=
  let visit (e : Expr) (want : Ty) : List Operand := ⟨e, want⟩ :: m.operandsIn e
  match action with
  | .assign _ e | .identity _ e | .void e => m.operandsIn e
  | .store place value =>
    match m.storedType place with
    | some want => m.operandsIn place ++ visit value want
    | none => []
  | .fillArray e _ | .monitorEnter e | .monitorExit e => visit e .object
  | .branch cond left right _ =>
    visit left cond.expected ++ right.toList.flatMap fun e => visit e cond.expected
  | .switch e _ _ _ => visit e .int
  | .return value => value.toList.flatMap fun e => visit e (.ofDesc m.result)
  | .throw e => visit e (.refTo throwableDesc)
  | .label _ | .phi _ _ | .goto _ | .nop => []

/-- Changes every operand of a statement, the innermost first. -/
def Method.mapOperands (m : Method) (change : Expr → Ty → Expr) (action : Action) : Action :=
  let visit (want : Ty) (e : Expr) : Expr := change (m.mapOperandsIn change e) want
  match action with
  | .assign target e => .assign target (m.mapOperandsIn change e)
  | .identity target e => .identity target (m.mapOperandsIn change e)
  | .void e => .void (m.mapOperandsIn change e)
  | .store place value =>
    match m.storedType place with
    | some want => .store (m.mapOperandsIn change place) (visit want value)
    | none => action
  | .fillArray e data => .fillArray (visit .object e) data
  | .monitorEnter e => .monitorEnter (visit .object e)
  | .monitorExit e => .monitorExit (visit .object e)
  | .branch cond left right target =>
    .branch cond (visit cond.expected left) (right.map (visit cond.expected)) target
  | .switch e keys targets default => .switch (visit .int e) keys targets default
  | .return value => .return (value.map (visit (.ofDesc m.result)))
  | .throw e => .throw (visit (.refTo throwableDesc) e)
  | .label _ | .phi _ _ | .goto _ | .nop => action

end DexLift.Ir
