import DexLift.Ir.Operand

/-!
# Constants

A constant is written where it is read, unless a join reads it. A zero that a
join reads may be wanted as a number in one place and as null in another; it is
split so that each kind of reader has its own.
-/

namespace DexLift.Ir

def zeroOf (type : Ty) : Expr := if type.kind = .ref then .null else .number type 0

/-- The constant a statement defines, with what is known about the local taken into account. -/
def Method.constantOf? (m : Method) (phiUses : Array Nat) : Action → Option (LocalId × Expr)
  | .assign target (.node (.const type value) args) =>
    if phiUses.getD target 0 > 0 then none
    else
      let kind := type.kind.inter (m.localType target).kind
      let type := if kind = .bottom then type else { type with kind }
      some (target, .node (.const type value) args)
  | _ => none

/-- Writes constants where they are read and takes out their definitions. -/
def Method.inlineConstants (m : Method) : Method :=
  let (_, phiUses) := m.useCounts
  let isConstant (id : StmtId) : Bool := (m.constantOf? phiUses (m.action id)).isSome
  let constants := m.actions.foldl (fun (table : Array (Option Expr)) action =>
    match m.constantOf? phiUses action with
    | some (target, value) => table.setIfInBounds target (some value)
    | none => table) (Array.replicate m.locals.size none)
  (m.removeWhere isConstant).mapActions fun action =>
    action.mapOperands (Expr.mapNodes fun e =>
      ((e.local?.bind fun id => constants.getD id none).getD e))

/-- A zero that readers want as different kinds: the statement that defines it, and its local. -/
structure SplitZero where
  stmt : StmtId
  id : LocalId
  /-- The wanted kinds in ascending order. -/
  kinds : List Kind

inductive ZeroChange where
  /-- The zero itself is resolved. -/
  | resolve (zero : SplitZero) (kind : Kind)
  /-- These readers get a local of their own. -/
  | separate (zero : SplitZero) (kind : Kind) (fresh : LocalId)

namespace Method

def openZero? (m : Method) (defs : Array (Option StmtId)) (id : LocalId) : Option StmtId :=
  match defs.getD id none with
  | none => none
  | some stmt =>
    match m.action stmt with
    | .assign _ value => if value.isZero && !value.ownType.isConcrete then some stmt else none
    | _ => none

def splitZeros (m : Method) : List SplitZero :=
  let defs := m.defs
  let wanted := (m.actions.flatMap m.operands).filterMap fun o =>
    match o.expr.local? with
    | some id =>
      if o.expected.kind.isConcrete && (m.openZero? defs id).isSome then some (id, o.expected.kind)
      else none
    | none => none
  (List.range m.locals.size).filterMap fun id =>
    let kinds := (wanted.filter fun w => w.1 == id).map Prod.snd
    if kinds.isEmpty then none
    else
      (m.openZero? defs id).map fun stmt =>
        { stmt, id, kinds := [Kind.int, .float, .long, .double, .ref].filter kinds.contains }

/-- What becomes of each zero; new locals are numbered from `next` on. A zero that a join reads
keeps its kind open. -/
def zeroChanges (phiUses : Array Nat) : List SplitZero → (next : LocalId) → List ZeroChange
  | [], _ => []
  | zero :: rest, next =>
    let separate (kinds : List Kind) : List ZeroChange :=
      kinds.zipIdx.map fun (kind, i) => .separate zero kind (next + i)
    match zero.kinds with
    | [] => zeroChanges phiUses rest next
    | first :: others =>
      if phiUses.getD zero.id 0 = 0 then
        .resolve zero first :: separate others ++ zeroChanges phiUses rest (next + others.length)
      else if others.isEmpty then zeroChanges phiUses rest next
      else separate zero.kinds ++ zeroChanges phiUses rest (next + zero.kinds.length)

def applyZeroChange (m : Method) : ZeroChange → Method
  | .resolve zero kind =>
    let m := m.setLocalType zero.id { kind }
    match m.action zero.stmt with
    | .assign target _ => m.setAction zero.stmt (.assign target (zeroOf { kind }))
    | _ => m
  | .separate zero kind fresh =>
    let (_, m) := m.newLocal { kind }
    m.addAfter zero.stmt
      { action := .assign fresh (zeroOf { kind }), line := (m.stmt zero.stmt).line }

def splitZeroConstants (m : Method) : Method :=
  let (_, phiUses) := m.useCounts
  let changes := zeroChanges phiUses m.splitZeros m.locals.size
  let freshFor (id : LocalId) (kind : Kind) : Option LocalId := changes.findSome? fun change =>
    match change with
    | .separate zero wanted fresh => if zero.id = id ∧ wanted = kind then some fresh else none
    | .resolve _ _ => none
  let renamed := m.mapActions (m.mapOperands fun e want =>
    match e.local? with
    | some id => ((freshFor id want.kind).map Expr.read).getD e
    | none => e)
  changes.foldl applyZeroChange renamed

end Method

/-!
## Access through null

A statement that reaches through a constant null cannot do anything but throw.
It is replaced by the throw, so that the code behind it is seen to be dead.
-/

/-- What reaching through null throws. -/
def nullPointerDesc : Text := "Ljava/lang/NullPointerException;"

/-- A new exception for reaching through null. -/
def newNullPointer : Expr :=
  .leaf (.construct nullPointerDesc
    { owner := nullPointerDesc, name := "<init>", proto := { params := [], result := "V" } })

def Expr.isNullLike (e : Expr) : Bool := e.isZero && e.ownType.kind.meets .ref

def Expr.reachesNull (e : Expr) : Bool :=
  match e.head with
  | .field _ isStatic => !isStatic && (e.arg 0).isNullLike
  | .element _ | .arrayLength => (e.arg 0).isNullLike
  | .invoke kind _ => kind != .static && (e.arg 0).isNullLike
  | _ => false

def Action.reachesNull (action : Action) : Bool :=
  let direct := match action with
    | .fillArray e _ | .monitorEnter e | .monitorExit e => e.isNullLike
    | _ => false
  direct || action.operands.any fun e => e.nodes.any Expr.reachesNull

/-- Replaces the statements that reach through null by throws. Also whether there were any. -/
def Method.replaceNullAccess (m : Method) : Method × Bool :=
  let found := m.body.filter fun (_, s) => s.action.reachesNull
  let m := found.foldl (fun m (id, s) =>
    let (fresh, m) := m.newStmt { action := .throw newNullPointer, line := s.line }
    m.replace id fresh) m
  (m, !found.isEmpty)

end DexLift.Ir
