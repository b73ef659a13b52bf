import DexLift.Simplify.Reachable

/-!
# The table of traps

The table is built anew from the statements that can throw: a run of them with
the same handlers has one range. Labels and empty statements do not interrupt a
run. Handlers that no range leads to any more are taken out.
-/

namespace DexLift.Ir

structure Catch where
  type : Text
  handler : Label
deriving DecidableEq

/-- What catches the exceptions of a position, each entry once. -/
def Method.catchesAt (m : Method) (f : Flow) (position : Nat) : List Catch :=
  ((f.handlers position).filterMap fun i =>
    (m.traps[i]?).map fun t => { type := t.type, handler := t.handler }).foldl addNew []

structure CatchRun where
  first : Nat
  last : Nat
  catches : List Catch

/-- Whether a statement may stand inside a run without throwing. -/
def Action.isFiller : Action → Bool
  | .label _ | .nop => true
  | _ => false

/-- The runs among positions with their catches, in order. `current` is the run at hand. -/
def catchRuns (f : Flow) : List (Nat × List Catch) → (current : Option CatchRun) → List CatchRun
  | [], current => current.toList
  | (position, catches) :: rest, current =>
    match current with
    | some run =>
      if (f.action position).isFiller then catchRuns f rest (some run)
      else if catches = run.catches then catchRuns f rest (some { run with last := position })
      else
        run :: catchRuns f rest
          (if catches.isEmpty then none else some ⟨position, position, catches⟩)
    | none =>
      catchRuns f rest (if catches.isEmpty then none else some ⟨position, position, catches⟩)

namespace Method

/-- Puts labels around a run and enters it in the table. -/
def addRun (f : Flow) (state : Method × List Trap) (run : CatchRun) : Method × List Trap :=
  let (m, traps) := state
  let (start, m) := m.newLabel
  let (stop, m) := m.newLabel
  let at_ (position : Nat) : StmtId := ((f.order[position]?).map Prod.fst).getD 0
  let m := m.addBefore (at_ run.first) { action := .label start }
  let m := m.addAfter (at_ run.last) { action := .label stop }
  (m, traps ++ run.catches.map fun c => { start, stop, handler := c.handler, type := c.type })

/-- Builds the table of traps anew. -/
def trimTraps (m : Method) : Method :=
  if m.traps.isEmpty then m
  else
    let f := Flow.ofMethod m
    let live := f.reachable
    let catches := (List.range f.size).map fun position =>
      (position, if live.getD position false then m.catchesAt f position else [])
    let (m, traps) := (catchRuns f catches none).foldl (addRun f) (m, [])
    let m := { m with traps }
    let f := Flow.ofMethod m
    let live := f.reachable
    let gone := (List.range f.size).foldl (fun (gone : Array Bool) position =>
      match f.order[position]? with
      | some (id, s) =>
        if !live.getD position false && !s.action.isLabel then gone.setIfInBounds id true else gone
      | none => gone) (Array.replicate m.stmts.size false)
    (m.removeWhere fun id => gone.getD id false).removeUnusedLabels

end Method

end DexLift.Ir
