import DexLift.Simplify.Constants

/-!
# Array literals

An array of constant size that is filled right behind its allocation, from a
table or by stores of constants, becomes one literal.
-/

namespace DexLift.Ir

/-- The most elements a literal made from single stores may have. -/
def maxLiteral : Nat := 256

def tableElement (type : Ty) (value : Int64) : Expr :=
  let bits := value.toUInt64
  if type.kind = .float then .number type bits.toUInt32.toUInt64
  else if type.kind = .long ∨ type.kind = .double then .number type bits
  else .number type bits.toUInt32.toInt32.toInt64.toUInt64

def storedElement? (type : Ty) : Expr → Option Expr
  | .node (.const own (.number bits)) args =>
    if type.kind = .ref then (if bits = 0 then some .null else none)
    else if own.kind.meets type.kind then some (.node (.const type (.number bits)) args)
    else none
  | .node (.const own value) args =>
    if type.kind = .ref then some (.node (.const own value) args) else none
  | _ => none

def Expr.constInt? : Expr → Option Int
  | .node (.const type (.number bits)) _ =>
    if type.kind.meets .int then some bits.toUInt32.toInt32.toInt else none
  | .node (.const type _) _ => if type.kind.meets .int then some 0 else none
  | _ => none

def elementStore? (id : LocalId) (size : Nat) (type : Ty) : Action → Option (Nat × Expr)
  | .store (.node (.element _) [array, index]) value => do
    if array.local? != some id then none
    let i ← index.constInt?
    if i < 0 ∨ i ≥ size then none
    return (i.toNat, ← storedElement? type value)
  | _ => none

def leadingStores (m : Method) (id : LocalId) (size : Nat) (type : Ty) :
    List StmtId → List (StmtId × Nat × Expr)
  | [] => []
  | stmt :: rest =>
    match elementStore? id size type (m.action stmt) with
    | some (index, value) => (stmt, index, value) :: leadingStores m id size type rest
    | none => []

def literalElements? (m : Method) (id : LocalId) (size : Nat) (type : Ty) (behind : List StmtId) :
    Option (List Expr × List StmtId) :=
  let table? : Option (List Expr × List StmtId) :=
    match behind with
    | [] => none
    | next :: _ =>
      match m.action next with
      | .fillArray array data =>
        if array.local? = some id ∧ data.elements.length = size then
          some (data.elements.map (tableElement type), [next])
        else none
      | _ => none
  table? <|>
    (if size ≤ maxLiteral then
      let stores := leadingStores m id size type behind
      if stores.isEmpty then none
      else
        let blank := Array.replicate size (zeroOf type)
        let filled := stores.foldl (fun (elements : Array Expr) (_, index, value) =>
          elements.setIfInBounds index value) blank
        some (filled.toList, stores.map Prod.fst)
    else none)

namespace Method

/-- Turns one allocation into a literal when it is filled right behind. -/
def literalAt (m : Method) (id : StmtId) : Method :=
  match m.action id with
  | .assign target (.node (.newArray desc) (size :: _)) =>
    match size.constInt? with
    | none => m
    | some size =>
      if size ≤ 0 || m.isDetached id then m
      else
        let behind := (m.onward id).tail
        match literalElements? m target size.toNat (.ofDesc (elementDesc desc)) behind with
        | none => m
        | some (elements, gone) =>
          (m.removeWhere gone.contains).setAction id
            (.assign target (.node (.arrayLiteral desc) elements))
  | _ => m

/-- Turns allocations that are filled right behind into literals. -/
def makeArrayLiterals (m : Method) : Method := m.order.foldl literalAt m

end Method

/-!
## Arrays of arrays

A reflective call that allocates an array of several dimensions, cast to the
array type, becomes the allocation itself. The operands of the call may be
written in place or come through locals that are read once.
-/

/-- The primitive type whose class object a wrapper class holds. -/
def wrappedType : List (String × String) := [
  ("Ljava/lang/Boolean;", "Z"), ("Ljava/lang/Byte;", "B"), ("Ljava/lang/Character;", "C"),
  ("Ljava/lang/Short;", "S"), ("Ljava/lang/Integer;", "I"), ("Ljava/lang/Long;", "J"),
  ("Ljava/lang/Float;", "F"), ("Ljava/lang/Double;", "D")]

/-- The method that allocates arrays of several dimensions. -/
def isNewInstance (method : MethodRef) : Bool :=
  method.owner == "Ljava/lang/reflect/Array;" && method.name == "newInstance" &&
    method.proto.params == [Ty.class_.desc, "[I"]

def isClassOf (base : Text) (e : Expr) : Bool :=
  match e.head with
  | .const _ (.class desc) => desc == base
  | .field ref true =>
    ref.name == "TYPE" &&
      (((wrappedType.find? fun w => ref.owner == w.1).map fun w => (w.2 : Text)).getD ∅) == base
  | _ => false

/-- The statements that define locals which are read once. -/
structure SingleReads where
  uses : Array Nat
  phiUses : Array Nat
  defs : Array (Option StmtId)

/-- What a local that is read once was assigned, and where; any other expression itself. -/
def SingleReads.resolve (reads : SingleReads) (m : Method) (e : Expr) : Expr × List StmtId :=
  match e.local? with
  | none => (e, [])
  | some id =>
    if reads.uses.getD id 0 != 1 || reads.phiUses.getD id 0 != 0 then (e, [])
    else
      match reads.defs.getD id none with
      | none => (e, [])
      | some stmt =>
        match m.action stmt with
        | .assign _ value => (value, [stmt])
        | _ => (e, [])

/-- The allocation that a cast of a reflective call amounts to, and the definitions it uses up. -/
def SingleReads.multiArray? (reads : SingleReads) (m : Method) (e : Expr) :
    Option (Expr × List StmtId) :=
  match e with
  | .node (.cast desc) (operand :: _) =>
    if !Descriptor.isArray desc then none
    else
      let (call, usedCall) := reads.resolve m operand
      match call.head with
      | .invoke .static method =>
        if !isNewInstance method then none
        else
          let (dims, usedDims) := reads.resolve m (call.arg 1)
          let count := dims.args.length
          if dims.head != .arrayLiteral "[I" || count == 0 then none
          else if desc.length ≤ count || (desc.take count).bytes.any (· != Descriptor.bracket) then
            none
          else
            let (base, usedBase) := reads.resolve m (call.arg 0)
            if isClassOf (desc.drop count) base then
              some (.node (.multiArray desc) dims.args, usedCall ++ usedDims ++ usedBase)
            else none
      | _ => none
  | _ => none

mutual

/-- Puts allocations of several dimensions into an expression, from the innermost out, and lists the
definitions used up. -/
def SingleReads.collapse (reads : SingleReads) (m : Method) : Expr → Expr × List StmtId
  | .node .missing args => (.node .missing args, [])
  | .node head args =>
    let (args, used) := reads.collapseAll m args
    match reads.multiArray? m (.node head args) with
    | some (e, more) => (e, used ++ more)
    | none => (.node head args, used)

/-- Puts them into several expressions. -/
def SingleReads.collapseAll (reads : SingleReads) (m : Method) :
    List Expr → List Expr × List StmtId
  | [] => ([], [])
  | e :: rest =>
    let (e, used) := reads.collapse m e
    let (rest, more) := reads.collapseAll m rest
    (e :: rest, used ++ more)

end

namespace Method

/-- Puts them into the expressions of one statement, and removes the definitions used up. -/
def multiArraysAt (reads : SingleReads) (m : Method) (id : StmtId) : Method :=
  if !m.isLinked id then m
  else
    let action := m.action id
    let used := action.operands.flatMap fun e => (reads.collapse m e).2
    let m := m.setAction id (action.mapOperands fun e => (reads.collapse m e).1)
    if used.isEmpty then m else m.removeWhere used.contains

/-- Turns reflective allocations of arrays of arrays into plain ones. -/
def makeMultiArrays (m : Method) : Method :=
  let (uses, phiUses) := m.useCounts
  m.order.foldl (multiArraysAt { uses, phiUses, defs := m.defs }) m

end Method

end DexLift.Ir
