import DexLift.Ir.Printer
import DexLift.Resolve.Slots
import DexLift.Resolve.Traps
import DexLift.Resolve.Types
import DexLift.Simplify.Arrays
import DexLift.Simplify.Construction
import DexLift.Simplify.Copies
import DexLift.Simplify.Inline

/-!
# From single assignment to slots

Methods are first simplified, which always succeeds, and then resolved: types,
joins, slots and the table of traps. Resolving can fail; the failure says in
which step and in which method.
-/

namespace DexLift.Ir.Method

/-- Takes out what cannot be reached, what is a copy and what is constant. -/
def cleanUp (m : Method) : Method := m.removeDeadCode.removeCopies.inlineConstants

/-- Simplifies a method in single-assignment form. -/
def simplify (m : Method) : Method :=
  let (m, changed) := m.cleanLabels.cleanUp.splitZeroConstants.replaceNullAccess
  let m := if changed then m.cleanUp else m
  m.pairConstructors.makeArrayLiterals.inlineValues.makeMultiArrays.dropUnreadValues

def inStep {α : Type} (m : Method) (step : String) (outcome : Outcome α) : Outcome α :=
  outcome.under (.detail (step ++ " " ++ m.title))

def resolve (m : Method) (h : Option Hierarchy) (reuse : Bool) : Outcome Method := do
  let typed ← m.inStep "type" (m.inferTypes h)
  let copied ← m.inStep "unssa" typed.replaceJoins
  return (copied.assignSlots reuse).trimTraps

end DexLift.Ir.Method
