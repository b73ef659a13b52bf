import DexLift.Ir.Flow

/-!
# Labels

Labels nothing refers to are taken out, and of several labels at one place one
is left. A label in front of joins keeps its place even when nothing refers to
it, because the joins belong to it.
-/

namespace DexLift.Ir.Method

/-- Whether something refers to each label; joins refer to the label in front of them. -/
def labelIsUsed (m : Method) : Label → Bool :=
  let refs := m.labelRefs
  let joined := m.phiLabels
  fun l =>
    match l with
    | .nowhere => false
    | .number index => refs.getD index 0 > 0 || joined.contains l

/-- Takes out the labels nothing refers to. -/
def removeUnusedLabels (m : Method) : Method :=
  let isUsed := m.labelIsUsed
  m.removeWhere fun id =>
    match m.action id with
    | .label l => !isUsed l
    | _ => false

/-- One round of looking for runs. -/
def runStep (m : Method) (joined : List Label) (state : Option Label × List (StmtId × Label × Label))
    (id : StmtId) : Option Label × List (StmtId × Label × Label) :=
  match m.action id with
  | .label l =>
    if joined.contains l then (none, state.2)
    else
      match state.1 with
      | none => (some l, state.2)
      | some first => (some first, (id, l, first) :: state.2)
  | _ => (none, state.2)

/-- For every label that stands right behind another, the first label of the run. Labels in front of
joins are in no run. -/
def labelRuns (m : Method) (joined : List Label) : List (StmtId × Label × Label) :=
  (m.order.foldl (m.runStep joined) (none, [])).2

def retarget (m : Method) (change : Label → Label) : Method :=
  let m := m.mapActions (Action.mapLabels change)
  { m with traps := m.traps.map fun t =>
      { t with start := change t.start, stop := change t.stop, handler := change t.handler } }

/-- Takes out labels nothing refers to and leaves one label of each run. -/
def cleanLabels (m : Method) : Method :=
  let joined := m.phiLabels
  let m := m.removeUnusedLabels
  let runs := m.labelRuns joined
  let merged := runs.map fun (id, _, _) => id
  let m := m.removeWhere merged.contains
  m.retarget fun l => ((runs.find? fun (_, old, _) => old == l).map fun (_, _, new) => new).getD l

end Method

/-!
## Code that cannot be reached

Statements no path from the entry leads to are taken out, with the traps that
cover none of the remaining ones and the operands of joins whose way in is gone.
Labels that still bound a trap stay where they are.
-/

namespace Method

/-- Taking operands out of one statement, with the exits of a method as it is then. -/
def pruneStep (t : EdgeTable) (dead : List Label) (k : Method) (pair : StmtId × Label) : Method :=
  match k.action pair.1 with
  | .phi target args => k.setAction pair.1 (.phi target (args.filter fun a =>
      !dead.contains a.pred && (t.exit? k a.pred pair.2 a.exceptional).isSome))
  | _ => k

/-- Keeps the operands of joins whose way in still exists and does not come from a dead block. -/
def prunePhis (m : Method) (dead : List Label) : Method :=
  (m.order.toList.zip m.blockLabels).foldl (pruneStep (EdgeTable.ofMethod m) dead) m

/-- Takes out what cannot be reached. -/
def removeDeadCode (m : Method) : Method :=
  let f := Flow.ofMethod m
  let live := f.reachable
  let isLive (position : Nat) : Bool := live.getD position false
  let covering := ((List.range f.size).filter isLive).flatMap f.coversOf
  let traps := (m.traps.zipIdx.filter fun (t, i) =>
    covering.contains i && (m.positionOf? t.handler).any isLive).map Prod.fst
  let markers := traps.flatMap fun t => [t.start, t.stop]
  let gone := (m.order.toList.zipIdx.filter fun (_, position) => !isLive position).map Prod.fst
  let dead := gone.filterMap fun id => (m.action id).label?
  let m := { m with traps }
  let removed := gone.foldl (fun (flags : Array Bool) id => flags.setIfInBounds id
    (match m.action id with
      | .label l => !markers.contains l
      | _ => true)) (Array.replicate m.stmts.size false)
  (m.removeWhere fun id => removed.getD id false).prunePhis dead

end DexLift.Ir.Method
