import DexLift.Ir.Method

/-!
# Copies and values nobody reads

A local that is a copy of another, or a join of one value, is replaced by that
value. Then the definitions go that no statement needs which has to stay.
Definitions that can throw or have effects stay even when nobody reads them.
-/

namespace DexLift.Ir

/-- The one local other than itself that a join reads, if there is exactly one. -/
def soleValue (subst : Substitution) (target : LocalId) (args : List PhiArg) : Option LocalId :=
  match (args.map fun a => subst.resolve a.value).filter (· != target) with
  | [] => none
  | first :: rest => if rest.all (· == first) then some first else none

/-- Looks at one statement: what stands for which local, and whether the statement goes. -/
def copyStep (subst : Substitution) : Action → Substitution × Bool
  | .assign target (.node (.read source) _) =>
    let source := subst.resolve source
    (if source = target then subst else subst.insert target source, true)
  | .phi target args =>
    match soleValue subst target args with
    | some value => (subst.insert target value, true)
    | none => (subst, false)
  | _ => (subst, false)

namespace Method

/-- Replaces locals that are copies or joins of one value. Also whether there were any. -/
def propagateCopies (m : Method) : Method × Bool :=
  let (subst, gone) := m.order.foldl (fun (subst, (gone : Array Bool)) id =>
    let (subst, goes) := copyStep subst (m.action id)
    (subst, if goes then gone.setIfInBounds id true else gone))
    (Substitution.identity m.locals.size, Array.replicate m.stmts.size false)
  let m := m.removeWhere fun id => gone.getD id false
  if subst.isIdentity then (m, false) else (m.mapActions (Action.substitute subst), true)

/-- Replaces copies until there are none. -/
def propagateAll : (fuel : Nat) → Method → Method
  | 0, m => m
  | fuel + 1, m =>
    let (m, changed) := m.propagateCopies
    if changed then propagateAll fuel m else m

end Method

/-- Whether a definition may go when nobody reads it. -/
def Action.isDeletable : Action → Bool
  | .phi .. | .identity .. => true
  | .assign _ value => value.isRemovable
  | _ => false

namespace Method

/-- Adds the locals that the definitions of some locals read, until nothing is added. -/
def spreadNeeds (m : Method) (defs : Array (Option StmtId)) :
    (fuel : Nat) → (work : List LocalId) → Array Bool → Array Bool
  | 0, _, needed => needed
  | _, [], needed => needed
  | fuel + 1, id :: work, needed =>
    let read : List LocalId :=
      match defs.getD id none with
      | none => []
      | some stmt =>
        let action := m.action stmt
        if action.isDeletable then action.uses ++ action.phiArgs.map PhiArg.value else []
    let found := (read.filter fun id => !needed.getD id true).eraseDups
    spreadNeeds m defs fuel (found ++ work)
      (found.foldl (fun needed id => needed.setIfInBounds id true) needed)

/-- Takes out the definitions that nothing needs. -/
def sweep (m : Method) : Method :=
  let roots := ((m.actions.filter fun action => !action.isDeletable).flatMap Action.uses)
  let marked := roots.foldl (fun (needed : Array Bool) id => needed.setIfInBounds id true)
    (Array.replicate m.locals.size false)
  let start := (List.range m.locals.size).filter fun id => marked.getD id false
  let needed := m.spreadNeeds m.defs (m.locals.size + 1) start marked
  m.removeWhere fun id =>
    let action := m.action id
    action.isDeletable && action.defines?.any fun target => !needed.getD target false

/-- Replaces copies and takes out what nobody reads. -/
def removeCopies (m : Method) : Method := (propagateAll (m.order.size + 1) m).sweep

end Method

end DexLift.Ir
