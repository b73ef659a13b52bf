import DexLift.Ir.Method

/-!
# Objects and their constructors

An allocation and the constructor call that follows it become one expression,
when the call comes before the end of the block and nothing in between touches
the object. An object that a handler may see half-made is left alone.
-/

namespace DexLift.Ir

/-- The arguments of a constructor call of a class on a local, the receiver left out; none for any
other statement. -/
def Action.constructorCall? (id : LocalId) (desc : Text) : Action → Option (MethodRef × List Expr)
  | .void (.node (.invoke .direct method) (receiver :: args)) =>
    if method.name = "<init>" ∧ method.owner = desc ∧ receiver.local? = some id ∧
        args.all (fun a => !a.uses.contains id) then some (method, args)
    else none
  | _ => none

/-- Whether a statement reads a local, in a join or elsewhere. -/
def Action.mentionsLocal (id : LocalId) (action : Action) : Bool :=
  action.uses.contains id || action.phiArgs.any fun a => a.value == id

/-- The constructor call for the object in a local among the statements behind its allocation. -/
def findConstructor (id : LocalId) (desc : Text) :
    List (StmtId × Stmt) → Option (StmtId × Stmt)
  | [] => none
  | (stmt, s) :: rest =>
    match s.action.constructorCall? id desc with
    | some (method, args) =>
      some (stmt, { s with action := .assign id (.node (.construct desc method) args) })
    | none =>
      if s.action.mentionsLocal id || s.action.endsBlock then none
      else findConstructor id desc rest

namespace Method

/-- The locals that joins read on the way into a handler. -/
def seenByHandlers (m : Method) : List LocalId :=
  (m.actions.flatMap Action.phiArgs).filterMap fun a => if a.exceptional then some a.value else none

def pairOne (shielded : List LocalId) (m : Method) (id : StmtId) : Method :=
  match m.action id with
  | .assign target (.node (.new desc) _) =>
    if shielded.contains target then m
    else
      let behind := (m.body.dropWhile fun (other, _) => other != id).tail
      match findConstructor target desc behind with
      | some (call, s) =>
        let (fresh, m) := m.newStmt s
        (m.replace call fresh).remove id
      | none => m
  | _ => m

/-- Joins allocations with their constructor calls. -/
def pairConstructors (m : Method) : Method := m.order.foldl (pairOne m.seenByHandlers) m

end Method

end DexLift.Ir
