import DexLift.Ir.Method

/-!
# Control flow between statements

Statements are addressed by their position in the body. A statement is covered
by a trap when it lies between the labels of the trap; covered statements that
can throw have exceptional edges to the handlers. A switch also has an edge to
the statement after it.
-/

namespace DexLift.Ir

/-- The statement graph of a method. -/
structure Flow where
  /-- The body: numbers and statements by position. -/
  order : Array (StmtId × Stmt)
  succs : Array (List Nat)
  /-- Positions of handlers, for covered statements that can throw. -/
  exSuccs : Array (List Nat)
  /-- Normal and exceptional predecessors. -/
  preds : Array (List Nat)
  /-- Traps, by position in the table, whose range contains the statement. -/
  covers : Array (List Nat)

/-- A list with an element added at its end unless it is there already. -/
def addNew {α : Type} [BEq α] (xs : List α) (x : α) : List α :=
  if xs.contains x then xs else xs ++ [x]

/-- The position of the statement that places a label. A statement that is not in the body counts
as the beginning. -/
def Method.positionOf? (m : Method) (l : Label) : Option Nat :=
  (m.placedAt? l).map fun id => (m.order.idxOf? id).getD 0

/-- The traps whose range contains a position. -/
def Method.coversAt (m : Method) (position : Nat) : List Nat :=
  (m.traps.zipIdx.filter fun (t, _) =>
    match m.positionOf? t.start, m.positionOf? t.stop with
    | some start, some stop => start < position && position < stop
    | _, _ => false).map Prod.snd

/-- Where control goes from a position without an exception: the next statement first, then the
targets of the branch. -/
def Method.succsAt (m : Method) (position : Nat) (action : Action) : List Nat :=
  let next := if action.fallsThrough && position + 1 < m.order.size then [position + 1] else []
  (action.targets.filterMap m.positionOf?).foldl addNew next

def Method.exSuccsAt (m : Method) (covers : List Nat) (action : Action) : List Nat :=
  if action.canThrow then
    (covers.filterMap fun i => m.traps[i]? >>= fun t => m.positionOf? t.handler).foldl addNew []
  else []

def enterPred (position : Nat) (preds : Array (List Nat)) (succ : Nat) : Array (List Nat) :=
  preds.modify succ (· ++ [position])

def Flow.ofMethod (m : Method) : Flow :=
  let order := m.body.toArray
  let numbered := m.body.zipIdx
  let covers := numbered.map fun (_, i) => m.coversAt i
  let succs := numbered.map fun ((_, s), i) => m.succsAt i s.action
  let exSuccs := (m.body.zip covers).map fun ((_, s), c) => m.exSuccsAt c s.action
  let preds := ((succs.zip exSuccs).zipIdx).foldl (fun preds ((normal, thrown), i) =>
    (normal ++ thrown).foldl (enterPred i) preds) (Array.replicate order.size [])
  { order, succs := succs.toArray, exSuccs := exSuccs.toArray, preds, covers := covers.toArray }

namespace Flow

/-- What the statement at a position does. -/
def action (f : Flow) (position : Nat) : Action :=
  ((f.order[position]?).map fun (_, s) => s.action).getD .nop

def size (f : Flow) : Nat := f.order.size

def succsOf (f : Flow) (position : Nat) : List Nat := f.succs.getD position []

/-- The exceptional successors of a position. -/
def exSuccsOf (f : Flow) (position : Nat) : List Nat := f.exSuccs.getD position []

def predsOf (f : Flow) (position : Nat) : List Nat := f.preds.getD position []

def coversOf (f : Flow) (position : Nat) : List Nat := f.covers.getD position []

/-- The traps that catch what a position throws, in the order of the table. -/
def handlers (f : Flow) (position : Nat) : List Nat :=
  if (f.action position).canThrow then f.coversOf position else []

/-- Marks what can be reached from the positions still to be visited. Every position is put on the
list at most once, so that `fuel` need not exceed their number. -/
def mark (f : Flow) : (fuel : Nat) → (work : List Nat) → Array Bool → Array Bool
  | 0, _, seen => seen
  | _, [], seen => seen
  | fuel + 1, position :: work, seen =>
    let found := (f.succsOf position ++ f.exSuccsOf position).eraseDups.filter fun j =>
      !seen.getD j true
    mark f fuel (found.reverse ++ work) (found.foldl (fun seen j => seen.setIfInBounds j true) seen)

/-- Which positions can be reached from the first one. -/
def reachable (f : Flow) : Array Bool :=
  let none := Array.replicate f.size false
  if f.size = 0 then none else f.mark f.size [0] (none.setIfInBounds 0 true)

/-- Whether a position can be reached from the first one. -/
def isReachable (f : Flow) (position : Nat) : Bool := f.reachable.getD position false

end Flow

/-!
## Edges that joins name

A join names the ways in by the labels of the blocks they come from. A label
opens a block when something refers to it: a branch, a handler, a join. Other
labels only mark the bounds of traps and lie inside a block.
-/

/-- Where control leaves a block for another. -/
inductive Exit where
  /-- Right before this statement: a branch, or a statement that throws. -/
  | before (stmt : StmtId)
  /-- Right after this statement, by running on. -/
  | after (stmt : StmtId)
deriving DecidableEq

/-- What is needed to resolve edges: the flow the method had, which labels open blocks, and for each
statement the statements it may throw to. -/
structure EdgeTable where
  opens : Array Bool
  throwsTo : Array (List StmtId)

namespace EdgeTable

def openers (m : Method) : List Label :=
  m.actions.flatMap (fun action => action.targets ++ action.phiArgs.map PhiArg.pred) ++
    m.traps.map Trap.handler ++ m.phiLabels

def ofMethod (m : Method) : EdgeTable :=
  let f := Flow.ofMethod m
  let opens := (openers m).foldl (fun (opens : Array Bool) l =>
    match l with
    | .nowhere => opens
    | .number index => opens.setIfInBounds index true) (Array.replicate m.placed.size false)
  let throwsTo := (List.range f.size).foldl (fun (table : Array (List StmtId)) position =>
    match f.order[position]? with
    | none => table
    | some (id, _) =>
      let handlers := (f.exSuccsOf position).filterMap fun h => (f.order[h]?).map Prod.fst
      table.setIfInBounds id handlers) (Array.replicate m.stmts.size [])
  { opens, throwsTo }

def opensBlock (t : EdgeTable) : Label → Bool
  | .nowhere => false
  | .number index => t.opens.getD index false

def mayThrowTo (t : EdgeTable) (m : Method) (id : StmtId) (handler : Label) : Bool :=
  match m.placedAt? handler with
  | some place => (t.throwsTo.getD id []).contains place
  | none => false

end EdgeTable

def Method.bodyFrom (m : Method) (id : StmtId) : List (StmtId × Action) :=
  (m.onward id).map fun id => (id, m.action id)

def Method.bodyAfter (m : Method) (l : Label) : Option (StmtId × List (StmtId × Action)) :=
  (m.placedAt? l).map fun id => (id, (m.bodyFrom id).tail)

/-- Whether a jump to one label arrives at another, passing over labels only. -/
def Method.reaches (m : Method) (source target : Label) : Bool :=
  match m.placedAt? source with
  | none => false
  | some id =>
    ((m.bodyFrom id).takeWhile fun s => s.2.isLabel).any fun s => s.2.label? == some target

def Method.branchesTo (m : Method) (action : Action) (target : Label) : Bool :=
  action.branches && action.targets.any fun l => m.reaches l target

/-- Looks for the exit to `succ` among the statements of a block. `last` is the statement before
them and `ended` says that control no longer runs on. -/
def findExit (t : EdgeTable) (m : Method) (succ : Label) (exceptional : Bool) :
    List (StmtId × Action) → (last : StmtId) → (ended : Bool) → Option Exit
  | [], _, _ => none
  | (id, action) :: rest, last, ended =>
    match action.label? with
    | some l =>
      if !exceptional && l == succ then some (.after last)
      else if t.opensBlock l then none
      else findExit t m succ exceptional rest last ended
    | none =>
      if ended then none
      else if exceptional && t.mayThrowTo m id succ then some (.before id)
      else if !exceptional && m.branchesTo action succ then some (.before id)
      else if !action.fallsThrough then none
      else findExit t m succ exceptional rest id action.endsBlock

/-- Where control leaves the block of one label for the block of another: at a branch to it, at the
end when it runs on, or at the first statement that throws to it. -/
def EdgeTable.exit? (t : EdgeTable) (m : Method) (pred succ : Label) (exceptional : Bool) :
    Option Exit := do
  let (start, rest) ← m.bodyAfter pred
  findExit t m succ exceptional rest start false

end DexLift.Ir
