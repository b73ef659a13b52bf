import DexLift.Ir.Method

/-!
# Values written where they are read

A value that is read once is computed by its reader, when both stand in one
block and the computation can move there: what it passes must neither throw nor
have effects nor read memory, unless the value itself is such that nothing can
tell when it is computed. A value that nobody reads and that has to be computed
all the same is computed and dropped.
-/

namespace DexLift.Ir

/-- Whether the node itself neither throws nor has effects nor reads memory. -/
def Expr.nodeIsPure (e : Expr) : Bool :=
  match e.head with
  | .const .. | .read .. | .unary .. | .instanceOf .. => true
  | .binary .. => !e.canThrow
  | _ => false

/-- Whether nothing can tell when the expression is computed. -/
def Expr.isPure (e : Expr) : Bool := e.nodes.all Expr.nodeIsPure

/-- Whether a computation that is not pure can move over the statement. -/
def Action.isPure : Action → Bool
  | .nop => true
  | .assign _ value => value.isPure
  | _ => false

mutual

/-- The nodes of an expression in the order of evaluation: operands before their operator. -/
def Expr.evalOrder : Expr → List Expr
  | .node head args => Expr.evalOrderOf args ++ [.node head args]

/-- The nodes of several expressions in the order of evaluation. -/
def Expr.evalOrderOf : List Expr → List Expr
  | [] => []
  | e :: rest => e.evalOrder ++ Expr.evalOrderOf rest

end

/-- The nodes of a statement in the order of evaluation. The place of a store is not evaluated, only
its operands. -/
def Action.evalOrder : Action → List Expr
  | .store place value => Expr.evalOrderOf place.args ++ value.evalOrder
  | action => Expr.evalOrderOf action.operands

/-- Whether values can be moved into the statement at all. -/
def Action.isReader : Action → Bool
  | .label .. | .phi .. | .identity .. | .nop | .goto .. => false
  | _ => true

/-- The statements between a definition and what comes after it in the block, last first. `before`
holds the statements in front, last first. -/
def passedOver (m : Method) (definition : StmtId) :
    (before : List StmtId) → Option (List StmtId)
  | [] => none
  | id :: rest =>
    if id = definition then some []
    else
      let action := m.action id
      if action.isLabel || action.isPhi || action.endsBlock then none
      else (passedOver m definition rest).map (id :: ·)

/-- Locals with one read outside joins and none in them, and where they are defined. -/
structure ReadOnce where
  uses : Array Nat
  phiUses : Array Nat
  defs : Array (Option StmtId)

/-- The assignment that defines a local which is read once; none when it is a bare allocation. -/
def ReadOnce.definition? (once : ReadOnce) (m : Method) (id : LocalId) : Option (StmtId × Expr) :=
  if once.uses.getD id 0 != 1 || once.phiUses.getD id 0 != 0 then none
  else
    match once.defs.getD id none with
    | none => none
    | some stmt =>
      if m.isDetached stmt then none
      else match m.action stmt with
      | .assign _ (.node (.new _) _) => none
      | .assign _ value => some (stmt, value)
      | _ => none

/-- The last evaluated read whose value can move to the reader: the local, its definition and its
value. `nodes` are the nodes of the reader still to be looked at, last evaluated first. -/
def ReadOnce.candidate? (once : ReadOnce) (m : Method) (before : List StmtId) :
    (nodes : List Expr) → Option (LocalId × StmtId × Expr)
  | [] => none
  | node :: earlier =>
    let found : Option (LocalId × StmtId × Expr) := do
      let id ← node.local?
      let (stmt, value) ← once.definition? m id
      let between ← passedOver m stmt before
      if value.isPure || (between.all fun id => (m.action id).isPure) && earlier.all Expr.nodeIsPure
      then some (id, stmt, value)
      else none
    found <|> once.candidate? m before earlier

/-- Moves values into one reader until no more can move. -/
def ReadOnce.fill (once : ReadOnce) (reader : StmtId) :
    (fuel : Nat) → Method → (before : List StmtId) → Method × List StmtId
  | 0, m, before => (m, before)
  | fuel + 1, m, before =>
    match once.candidate? m before (m.action reader).evalOrder.reverse with
    | none => (m, before)
    | some (id, stmt, value) =>
      let s := m.stmt reader
      let line := s.line <|> (m.stmt stmt).line
      let m := { m with
        stmts := m.stmts.setIfInBounds reader { action := s.action.replaceLocal id value, line } }
      if m.chain.isNone then once.fill reader fuel m (before.erase stmt)
      else
        let m := m.remove stmt
        once.fill reader fuel m (m.inFront reader)

/-- Moves values into the readers of a list in order; `before` holds the statements in front, last
first. -/
def ReadOnce.fillAll (once : ReadOnce) :
    List StmtId → Method → (before : List StmtId) → Method × List StmtId
  | [], m, before => (m, before)
  | id :: rest, m, before =>
    let before := if m.chain.isNone then before else m.inFront id
    let (m, before) :=
      if (m.action id).isReader then once.fill id (before.length + 1) m before else (m, before)
    once.fillAll rest m (id :: before)

namespace Method

def inlineValues (m : Method) : Method :=
  let (uses, phiUses) := m.useCounts
  let once : ReadOnce := { uses, phiUses, defs := m.defs }
  let (m, kept) := once.fillAll m.order.toList m []
  if m.chain.isNone then { m with order := kept.reverse.toArray } else m

/-- Computes and drops the values that nobody reads. -/
def dropUnreadValues (m : Method) : Method :=
  let (uses, phiUses) := m.useCounts
  m.order.foldl (fun m id =>
    let s := m.stmt id
    match s.action with
    | .assign target value =>
      if uses.getD target 0 > 0 || phiUses.getD target 0 > 0 || value.isRemovable then m
      else
        let (fresh, m) := m.newStmt { s with action := .void value }
        m.replace id fresh
    | _ => m) m

end Method

end DexLift.Ir
