import DexLift.Failure
import DexLift.Ir.Flow

/-!
# Blocks of a method

A block is a run of statements that is entered at its first one only. Blocks
begin at the first statement, at labels and after statements that end a block.
The edges between them say under which condition they are taken.
-/

namespace DexLift.Ir

/-- An edge to another block. The condition is empty when there is none, `T` and `F` for the two
ways of a branch, `E` for an exception, and names the case of a switch. -/
structure BlockEdge where
  block : Nat
  cond : Text
deriving DecidableEq

/-- A run of statements, from `start` up to but not including `stop`. -/
structure Block where
  id : Nat
  start : Nat
  stop : Nat
  label : Label
  isEntry : Bool
  /-- Ends with a return or a throw. -/
  isTerminal : Bool := false
  /-- Receives exceptions. -/
  isHandler : Bool := false
  succs : List BlockEdge := []

structure BlockGraph where
  name : Text
  blocks : List Block
  stmts : List Stmt

/-- The positions where blocks begin. -/
def leaders (actions : List Action) : List Nat :=
  let afterEnd := actions.zipIdx.filterMap fun (action, i) =>
    if action.endsBlock then some (i + 1) else none
  (actions.zipIdx.filter fun (action, i) => i == 0 || action.isLabel || afterEnd.contains i).map
    Prod.snd

def blockOf (starts : List Nat) (position : Nat) : Nat :=
  (starts.filter (· ≤ position)).length - 1

/-- The edges that the last statement of a block gives rise to, by position. A branch to a label
that is not placed has nowhere to go, and a case needs its key. -/
def lastEdges (m : Method) (size stop : Nat) (last : Action) : Outcome (List (Nat × Text)) :=
  let next (cond : Text) : List (Nat × Text) := if stop < size then [(stop, cond)] else []
  let edge (l : Label) (cond : Text) : Outcome (Nat × Text) := do
    return (← Outcome.ofOption (m.positionOf? l), cond)
  match last with
  | .branch _ _ _ target => do return (← edge target "T") :: next "F"
  | .goto target => do return [← edge target ""]
  | .switch _ keys targets default => do
    let cases ← targets.zipIdx.mapM fun (target, k) => do
      edge target ("case " ++ Text.ofInt (← Outcome.ofOption keys[k]?).toInt)
    return cases ++ [← edge default "default"]
  | .return _ | .throw _ => .ok []
  | _ => .ok (next "")

def Method.block (m : Method) (f : Flow) (starts : List Nat) (id start stop : Nat) :
    Outcome Block := do
  let last := f.action (stop - 1)
  let plain ← lastEdges m f.size stop last
  let thrown := (List.range' start (stop - start)).flatMap fun i =>
    (f.exSuccsOf i).map fun h => (h, ("E" : Text))
  let succs := ((plain ++ thrown).map fun (position, cond) =>
    (⟨blockOf starts position, cond⟩ : BlockEdge)).foldl addNew []
  return {
    id, start, stop
    label := (f.action start).label?.getD .nowhere
    isEntry := start == 0
    isTerminal := match last with
      | .return _ | .throw _ => true
      | _ => false
    succs }

def Method.blockGraph (m : Method) : Outcome BlockGraph := do
  let f := Flow.ofMethod m
  let starts := leaders m.actions
  let stops := starts.tail ++ [f.size]
  let blocks ← ((starts.zip stops).zipIdx).mapM fun ((start, stop), id) =>
    m.block f starts id start stop
  let entered := blocks.flatMap fun b =>
    (b.succs.filter fun e => e.cond == ("E" : Text)).map BlockEdge.block
  return {
    name := m.owner ++ "->" ++ m.title
    blocks := blocks.map fun b => { b with isHandler := entered.contains b.id }
    stmts := m.body.map Prod.snd }

end DexLift.Ir
