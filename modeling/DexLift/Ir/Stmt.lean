import DexLift.Ir.Expr

/-!
# Statements

A statement defines a local, stores, branches, or marks a place. Labels name
places; branches, traps and the operands of joins refer to them.
-/

namespace DexLift.Ir

/-- A place in a method by number, or no place: a branch to nowhere has no successor. -/
inductive Label where
  | nowhere
  | number (index : Nat)
deriving DecidableEq, Inhabited, Repr, Hashable

/-- The relation a conditional branch tests. -/
inductive Cond where
  | eq | ne | lt | ge | gt | le
deriving DecidableEq, Inhabited, Repr

/-- All relations, in their standard order. -/
def Cond.all : List Cond := [.eq, .ne, .lt, .ge, .gt, .le]

/-- The position in the standard order. -/
def Cond.index : Cond → Nat
  | eq => 0 | ne => 1 | lt => 2 | ge => 3 | gt => 4 | le => 5

def Cond.text : Cond → String
  | eq => "==" | ne => "!=" | lt => "<" | ge => ">=" | gt => ">" | le => "<="

def Cond.negate : Cond → Cond
  | eq => ne | ne => eq | lt => ge | ge => lt | gt => le | le => gt

/-- The relation between the exchanged operands. -/
def Cond.swap : Cond → Cond
  | eq => eq | ne => ne | lt => gt | gt => lt | le => ge | ge => le

/-- One operand of a join: the local that counts when control comes from the block of a label, by
throwing when `exceptional`. -/
structure PhiArg where
  pred : Label
  value : LocalId
  exceptional : Bool
deriving DecidableEq, Inhabited, Repr

/-- Contents for an array: element width in bytes and elements. -/
structure FillData where
  width : Nat
  elements : List Int64
deriving DecidableEq, Inhabited, Repr

/-- What a statement does. -/
inductive Action where
  | label (label : Label)
  | assign (target : LocalId) (value : Expr)
  /-- Names what is there at the entry of the method or of a handler. -/
  | identity (target : LocalId) (value : Expr)
  | phi (target : LocalId) (args : List PhiArg)
  /-- Writes to a field or an array element. -/
  | store (place value : Expr)
  | fillArray (array : Expr) (data : FillData)
  /-- Without a right operand the left one is compared with zero or null. -/
  | branch (cond : Cond) (left : Expr) (right : Option Expr) (target : Label)
  | goto (target : Label)
  | switch (value : Expr) (keys : List Int32) (targets : List Label) (default : Label)
  | return (value : Option Expr)
  | throw (value : Expr)
  | nop
  | monitorEnter (value : Expr)
  | monitorExit (value : Expr)
  /-- Evaluates and drops the value. -/
  | void (value : Expr)
deriving Inhabited, Repr

namespace Action

def word : Action → String
  | label .. => "label" | assign .. => "assign" | identity .. => "identity" | phi .. => "phi"
  | store .. => "store" | fillArray .. => "fill-array" | branch .. => "if" | goto .. => "goto"
  | switch .. => "switch" | .return .. => "return" | throw .. => "throw" | nop => "nop"
  | monitorEnter .. => "monitor-enter" | monitorExit .. => "monitor-exit" | void .. => "void"

def defines? : Action → Option LocalId
  | assign target _ => some target
  | identity target _ => some target
  | phi target _ => some target
  | _ => none

/-- The main expression of a statement. -/
def value? : Action → Option Expr
  | assign _ value | identity _ value | store _ value | fillArray value _ | branch _ value _ _
  | switch value _ _ _ | throw value | monitorEnter value | monitorExit value | void value =>
    if value.isMissing then none else some value
  | .return value => value
  | _ => none

/-- The outermost expressions, in the order of evaluation. -/
def operands : Action → List Expr
  | store place value => [place, value].filter fun e => !e.isMissing
  | branch _ left right _ => (left :: right.toList).filter fun e => !e.isMissing
  | action => action.value?.toList

/-- Changes every outermost expression. -/
def mapOperands (change : Expr → Expr) (action : Action) : Action :=
  let change (e : Expr) : Expr := if e.isMissing then e else change e
  match action with
  | assign target value => assign target (change value)
  | identity target value => identity target (change value)
  | store place value => store (change place) (change value)
  | fillArray array data => fillArray (change array) data
  | branch cond left right target => branch cond (change left) (right.map change) target
  | switch value keys targets default => switch (change value) keys targets default
  | .return value => .return (value.map change)
  | throw value => throw (change value)
  | monitorEnter value => monitorEnter (change value)
  | monitorExit value => monitorExit (change value)
  | void value => void (change value)
  | label _ | phi _ _ | goto _ | nop => action

/-- The locals read, the operands of joins not counted. -/
def uses (action : Action) : List LocalId := action.operands.flatMap Expr.uses

def phiArgs : Action → List PhiArg
  | phi _ args => args
  | _ => []

/-- Whether control is transferred explicitly. -/
def branches : Action → Bool
  | branch .. | goto .. | switch .. => true
  | _ => false

/-- Whether control can go on to the next statement. -/
def fallsThrough : Action → Bool
  | goto .. | .return .. | throw .. => false
  | _ => true

def endsBlock (action : Action) : Bool := action.branches || !action.fallsThrough

def canThrow : Action → Bool
  | label .. | phi .. | identity .. | nop | goto .. => false
  | store .. | fillArray .. | throw .. | monitorEnter .. | monitorExit .. => true
  | action => action.operands.any Expr.canThrow

/-- The labels control may go to, the default of a switch first. -/
def targets : Action → List Label
  | branch _ _ _ target => [target]
  | goto target => [target]
  | switch _ _ targets default => default :: targets
  | _ => []

/-- Changes every label referred to; the label a statement places is not one of them. -/
def mapLabels (change : Label → Label) : Action → Action
  | branch cond left right target => branch cond left right (change target)
  | goto target => goto (change target)
  | switch value keys targets default => switch value keys (targets.map change) (change default)
  | phi target args => phi target (args.map fun a => { a with pred := change a.pred })
  | action => action

def label? : Action → Option Label
  | label l => some l
  | _ => none

/-- Whether the statement places a label. -/
def isLabel (action : Action) : Bool := action.label?.isSome

/-- Whether the statement is a join. -/
def isPhi : Action → Bool
  | phi .. => true
  | _ => false

/-- Whether the statement receives a caught exception. -/
def isCaught : Action → Bool
  | identity _ (.node (.caught ..) _) => true
  | _ => false

/-- The statement with reads of a local replaced by an expression. -/
def replaceLocal (target : LocalId) (replacement : Expr) (action : Action) : Action :=
  action.mapOperands (Expr.replaceLocal target replacement)

end Action

/-- A statement and the source line it comes from. -/
structure Stmt where
  action : Action
  line : Option Nat := none
deriving Inhabited, Repr

/-!
## Substitutions

A table that lets one local stand for another. Following the table leads to a
local that stands for itself.
-/

/-- What stands for each local: another local, or nothing when it stands for itself. -/
abbrev Substitution := Array (Option LocalId)

namespace Substitution

/-- The substitution of `count` locals that changes nothing. -/
def identity (count : Nat) : Substitution := Array.replicate count none

/-- Lets one local stand for another. -/
def insert (subst : Substitution) (id target : LocalId) : Substitution :=
  subst.setIfInBounds id (some target)

/-- Whether no local is replaced. -/
def isIdentity (subst : Substitution) : Bool := subst.all Option.isNone

/-- Follows the table for at most `fuel` links. -/
def find (subst : Substitution) : (fuel : Nat) → LocalId → LocalId
  | 0, id => id
  | fuel + 1, id =>
    match subst.getD id none with
    | some next => subst.find fuel next
    | none => id

/-- The local that stands for another in the end; no chain is longer than the table. -/
def resolve (subst : Substitution) (id : LocalId) : LocalId := subst.find subst.size id

def applyExpr (subst : Substitution) : Expr → Expr :=
  Expr.mapNodes fun e =>
    match e.local? with
    | some id => .read (subst.resolve id)
    | none => e

end Substitution

/-- The statement with every read resolved, the operands of joins included. -/
def Action.substitute (subst : Substitution) (action : Action) : Action :=
  match action with
  | .phi target args => .phi target (args.map fun a => { a with value := subst.resolve a.value })
  | action => action.mapOperands subst.applyExpr

end DexLift.Ir
