import DexLift.Ir.Flow

/-!
# Running a method

A method is run statement by statement. What its operations give is left open: a
world says what the operations that neither throw nor have effects compute, and
answers every other request with a value or an exception. An answer may depend on
all requests before it, so that a world can be any memory, any library and any
input. The requests made so far, with operands and answers, are the history of a
run.

Joins are read by the edge that was taken. Entering a block keeps the values the
locals had on the edge, the block it came from and whether an exception took it;
all joins of the block read those kept values. An exception leaves a statement
before its definition takes effect.
-/

namespace DexLift.Ir

/-! ## Blocks -/

namespace Method

/-- Whether something refers to a label as the beginning of a block. -/
def opens (m : Method) (l : Label) : Bool := (EdgeTable.openers m).contains l

/-- The block a place belongs to, and whether a transfer of control has ended it. -/
structure Standing where
  block : Label
  ended : Bool
deriving DecidableEq

/-- Passes over a statement. Labels that open no block lie inside one; what follows a transfer of
control without such a label belongs to no block. -/
def Standing.pass (opens : Label → Bool) (s : Standing) : Action → Standing
  | .label l => if opens l then ⟨l, false⟩ else s
  | action => if s.ended then ⟨.nowhere, true⟩ else ⟨s.block, action.endsBlock⟩

/-- The place behind several statements. -/
def Standing.passAll (opens : Label → Bool) (actions : List Action) (s : Standing) : Standing :=
  actions.foldl (Standing.pass opens) s

def blockAt (m : Method) (position : Nat) : Label :=
  (Standing.passAll m.opens (m.actions.take (position + 1)) ⟨.nowhere, false⟩).block

/-- The position of a label in the body. -/
def find? (m : Method) (l : Label) : Option Nat :=
  m.actions.findIdx? fun action => action.label? == some l

/-- Whether a position lies strictly between the labels of a trap. -/
def covered (m : Method) (t : Trap) (position : Nat) : Bool :=
  match m.find? t.start, m.find? t.stop with
  | some start, some stop => start < position && position < stop
  | _, _ => false

end Method

/-! ## Worlds -/

/-- What a run asks of the world. -/
inductive Request where
  /-- The value of a node that can throw. -/
  | evaluate (head : Head)
  /-- Writing to a field or an element. -/
  | store (place : Head)
  | fill (data : FillData)
  | monitor (enter : Bool)
  | throw
deriving DecidableEq

/-- Whether two answers are the same. -/
instance decideAnswer {V : Type} [DecidableEq V] : DecidableEq (Except V V)
  | .ok x, .ok y => decidable_of_iff (x = y) ⟨congrArg _, Except.ok.inj⟩
  | .error x, .error y => decidable_of_iff (x = y) ⟨congrArg _, Except.error.inj⟩
  | .ok _, .error _ => isFalse nofun
  | .error _, .ok _ => isFalse nofun

/-- A request that was made: on which values, and what came back. -/
structure Event (V : Type) where
  request : Request
  operands : List V
  answer : Except V V
deriving DecidableEq

/-- The requests of a run, the last one first. -/
abbrev History (V : Type) := List (Event V)

/-- Everything a run depends on besides the code. -/
structure World (V : Type) where
  /-- What a node that neither throws nor has effects computes. -/
  value : Head → List V → V
  /-- The answer to a request, which may depend on all requests before. -/
  answer : History V → Request → List V → Except V V
  /-- Whether a relation holds; without a right operand it is one with zero or null. -/
  holds : Cond → V → Option V → Bool
  /-- The key a switch looks for. -/
  key : V → Int32
  /-- Whether a handler for a type takes an exception. -/
  takes : Text → V → Bool
  receiver : V
  param : Nat → V

namespace World

variable {V : Type} (w : World V)

def ask (history : History V) (request : Request) (operands : List V) :
    History V × Except V V :=
  let answer := w.answer history request operands
  (⟨request, operands, answer⟩ :: history, answer)

/-- Whether a handler takes an exception; the empty type takes all. -/
def catches (type : Text) (x : V) : Bool := type.isEmpty || w.takes type x

end World

/-- The values of locals; those not set yet have none. -/
abbrev Env (V : Type) := LocalId → Option V

def Env.set {V : Type} (env : Env V) (id : LocalId) (v : V) : Env V :=
  fun other => if other = id then some v else env other

/-! ## Expressions -/

section Evaluation

variable {V : Type} (w : World V) (env : Env V) (caught : Option V)

mutual

/-- Evaluates an expression, operands first. There is no result when a local is read that is not
set. -/
def evaluate (history : History V) : Expr → Option (History V × Except V V)
  | .node head args =>
    match head with
    | .read id => (env id).map fun v => (history, .ok v)
    | .caught _ _ => caught.map fun v => (history, .ok v)
    | .this => some (history, .ok w.receiver)
    | .param index => some (history, .ok (w.param index))
    | head =>
      match evaluateAll history args with
      | none => none
      | some (history, .error x) => some (history, .error x)
      | some (history, .ok values) =>
        if head.throws then some (w.ask history (.evaluate head) values)
        else some (history, .ok (w.value head values))

/-- Evaluates several expressions from left to right, up to the first that throws. -/
def evaluateAll (history : History V) : List Expr → Option (History V × Except V (List V))
  | [] => some (history, .ok [])
  | e :: rest =>
    match evaluate history e with
    | none => none
    | some (history, .error x) => some (history, .error x)
    | some (history, .ok v) =>
      match evaluateAll history rest with
      | none => none
      | some (history, .error x) => some (history, .error x)
      | some (history, .ok vs) => some (history, .ok (v :: vs))

end

end Evaluation

/-! ## Statements -/

/-- Where control goes after a statement. -/
inductive Move (V : Type) where
  | next
  | jump (l : Label)
  | raise (x : V)
  | finish (v : Option V)

/-- A run at some statement. -/
structure State (V : Type) where
  position : Nat
  env : Env V
  /-- The block that control came from when it entered the present one, and whether by an exception.
  -/
  origin : Label × Bool
  /-- The values of locals on the edge into the present block. -/
  entering : Env V
  /-- The exception a handler was entered with. -/
  caught : Option V
  history : History V

section Execution

variable {V : Type} (w : World V)

/-- Evaluates an operand and goes on with its value; an exception leaves at once. -/
def State.withValue (s : State V) (operand : Expr)
    (go : History V → V → History V × Env V × Move V) : Option (History V × Env V × Move V) :=
  match evaluate w s.env s.caught s.history operand with
  | none => none
  | some (history, .error x) => some (history, s.env, .raise x)
  | some (history, .ok v) => some (go history v)

def State.withValues (s : State V) (operands : List Expr)
    (go : History V → List V → History V × Env V × Move V) :
    Option (History V × Env V × Move V) :=
  match evaluateAll w s.env s.caught s.history operands with
  | none => none
  | some (history, .error x) => some (history, s.env, .raise x)
  | some (history, .ok values) => some (go history values)

/-- Evaluates operands and makes a request on their values whose answer nobody reads. -/
def State.request (s : State V) (operands : List Expr) (request : Request) :
    Option (History V × Env V × Move V) :=
  s.withValues w operands fun history values =>
    match w.ask history request values with
    | (history, .ok _) => (history, s.env, .next)
    | (history, .error x) => (history, s.env, .raise x)

def switchLabel (keys : List Int32) (targets : List Label) (default : Label) (key : Int32) : Label :=
  ((keys.zip targets).find? fun k => k.1 == key).elim default Prod.snd

/-- What a statement does with the locals, and where control goes. -/
def State.perform (s : State V) : Action → Option (History V × Env V × Move V)
  | .label _ | .nop => some (s.history, s.env, .next)
  | .phi target args =>
    (args.find? fun a => a.pred == s.origin.1 && a.exceptional == s.origin.2).bind fun a =>
      (s.entering a.value).map fun v => (s.history, s.env.set target v, .next)
  | .assign target value | .identity target value =>
    s.withValue w value fun history v => (history, s.env.set target v, .next)
  | .store place value => s.request w (place.args ++ [value]) (.store place.head)
  | .fillArray array data => s.request w [array] (.fill data)
  | .monitorEnter value => s.request w [value] (.monitor true)
  | .monitorExit value => s.request w [value] (.monitor false)
  | .void value => s.withValue w value fun history _ => (history, s.env, .next)
  | .branch cond left right target =>
    s.withValues w (left :: right.toList) fun history values =>
      let taken := values.head?.any fun v => w.holds cond v values[1]?
      (history, s.env, if taken then .jump target else .next)
  | .goto target => some (s.history, s.env, .jump target)
  | .switch value keys targets default =>
    s.withValue w value fun history v =>
      (history, s.env, .jump (switchLabel keys targets default (w.key v)))
  | .return none => some (s.history, s.env, .finish none)
  | .return (some value) => s.withValue w value fun history v => (history, s.env, .finish (some v))
  | .throw value =>
    s.withValue w value fun history v =>
      match w.ask history .throw [v] with
      | (history, .ok x) => (history, s.env, .raise x)
      | (history, .error x) => (history, s.env, .raise x)

/-- How far a run has come. -/
inductive Status (S V : Type) where
  | running (state : S)
  | returned (v : Option V) (history : History V)
  | uncaught (x : V) (history : History V)
  /-- The run read what is not there, or control went nowhere. -/
  | stuck

/-- What can be seen of a run: the requests it has made, and how it ended. -/
inductive Seen (V : Type) where
  | running (history : History V)
  | returned (v : Option V) (history : History V)
  | uncaught (x : V) (history : History V)
  | stuck
deriving DecidableEq

/-- What can be seen of how far a run has come. -/
def Status.seen {S V : Type} (history : S → History V) : Status S V → Seen V
  | .running s => .running (history s)
  | .returned v history => .returned v history
  | .uncaught x history => .uncaught x history
  | .stuck => .stuck

variable (m : Method)

/-- Goes on at another position. A label that opens a block keeps what joins may read. -/
def State.goTo (s : State V) (position : Nat) (exceptional : Bool) : State V :=
  match m.actions[position]? with
  | some (.label l) =>
    if m.opens l then
      { s with position, origin := (m.blockAt s.position, exceptional), entering := s.env }
    else { s with position }
  | _ => { s with position }

/-- The first trap that takes an exception thrown at a position. -/
def Method.trapFor? (x : V) (position : Nat) : Option Trap :=
  m.traps.find? fun t => m.covered t position && w.catches t.type x

/-- Goes where a statement says. -/
def State.follow (s : State V) : Move V → Status (State V) V
  | .next => .running (s.goTo m (s.position + 1) false)
  | .jump l =>
    match m.find? l with
    | some position => .running (s.goTo m position false)
    | none => .stuck
  | .finish v => .returned v s.history
  | .raise x =>
    match m.trapFor? w x s.position with
    | none => .uncaught x s.history
    | some t =>
      match m.find? t.handler with
      | some position => .running ({ s with caught := some x }.goTo m position true)
      | none => .stuck

/-- Executes the statement at the position. A caught exception is at hand until the first statement
that is neither label nor join. -/
def State.step (s : State V) : Status (State V) V :=
  match m.actions[s.position]? with
  | none => .stuck
  | some action =>
    match s.perform w action with
    | none => .stuck
    | some (history, env, move) =>
      let caught := if action.isLabel || action.isPhi then s.caught else none
      { s with history, env, caught }.follow w m move

/-- One step of a run; an ended run stays as it is. -/
def Status.step : Status (State V) V → Status (State V) V
  | .running s => s.step w m
  | status => status

/-- A run from the beginning of the body. -/
def State.start : State V :=
  { position := 0, env := fun _ => none, origin := (.nowhere, false), entering := fun _ => none
    caught := none, history := [] }

def Method.run : Nat → Status (State V) V
  | 0 => .running .start
  | n + 1 => (Method.run n).step w m

end Execution

end DexLift.Ir
