import DexLift.Files.Results

/-!
# What commands share

A command works on a tree of files and prints text. Commands that look into a
file of classes pass over what cannot be read or lowered.
-/

namespace DexLift.Command

structure State where
  tree : Files.Tree := {}
  /-- What was printed, piece by piece. -/
  printed : Array Text := #[]
  /-- What the user is told besides. -/
  notices : Array Text := #[]

def State.output (s : State) : Text := Text.concat s.printed.toList

end Command

/-- A command. What was done before a step that fails stays done. -/
abbrev Command := ExceptT Stop (StateM Command.State)

namespace Command

def refuse {α : Type} (message : Text) : Command α := throw (.failed ⟨[], .other message⟩)

def print (t : Text) : Command Unit := modify fun s => { s with printed := s.printed.push t }

/-- Tells the user something. -/
def notify (t : Text) : Command Unit := modify fun s => { s with notices := s.notices.push t }

def require {α : Type} : Except Failure α → Command α
  | .ok value => return value
  | .error failure => throw (.failed failure)

def files {α : Type} (work : Files.Work α) : Command α := do
  let s ← get
  let (result, tree) := work.run.run s.tree
  set { s with tree }
  require result

def under {α : Type} (note : Text) (result : Except Failure α) : Except Failure α :=
  result.mapError fun failure => failure.under (.detail note)

def readInput (path : Text) : Command ByteArray := do
  let content ← require (under ("dex: open " ++ path) ((← get).tree.map path))
  return ⟨content.toArray⟩

/-- The value of a computation, or its end. -/
def ofOutcome {α : Type} (outcome : Outcome α) : Command α := fun s => (outcome, s)

structure Loaded where
  input : Convert.Input
  classes : List Dex.ClassNode

/-- The classes in some data, without debugging information. Classes that cannot be read are passed
over. -/
def classesOf (data : ByteArray) : Outcome Loaded := do
  let options : Dex.ReadOptions := { skipDebug := true, ignoreReadException := true }
  let (file, collected) ← Dex.read (← Archive.extract data) options fun _ => none
  match collected.failed with
  | some failure => throw (.failed failure)
  | none =>
    let classes := collected.classes
    return { input := { file, hierarchy := Dex.hierarchy classes }, classes }

def load (path : Text) : Command Loaded := do
  let data ← readInput path
  ofOutcome ((classesOf data).under (.detail path))

/-- The classes that a pattern stands for; all without a pattern. -/
def select (classes : List Dex.ClassNode) (pattern : Text) : Command (List Dex.ClassNode) := do
  if pattern.isEmpty then return classes
  let chosen := classes.filter fun c =>
    Options.matchesName pattern (Descriptor.className c.name)
  if chosen.isEmpty then refuse ("no class matches " ++ pattern) else return chosen

structure Body where
  owner : Text
  method : Ir.Method

/-- The body of a method; none when the method has no code or cannot be lowered. Raw bodies are
neither simplified nor given slots. -/
def body? (l : Loaded) (raw : Bool) (c : Dex.ClassNode) (m : Dex.Method) : Outcome (Option Body) :=
  if m.code.isNone then .ok none
  else
    let lowered :=
      if raw then m.lower l.input.file else Convert.lowered l.input .standard m
    match lowered with
    | .ok method => .ok (some { owner := Descriptor.className c.name, method })
    | .error (.failed _) => .ok none
    | .error stop => .error stop

def bodies (l : Loaded) (raw : Bool) (classes : List Dex.ClassNode) : Command (List Body) := do
  let found ← ofOutcome (classes.mapM fun c => c.methods.mapM (body? l raw c))
  return found.flatMap fun ofClass => ofClass.filterMap id

/-!
## Flags

A flag begins with one or two hyphens. Its value follows an equals sign or is the
next argument; a switch takes a value only after an equals sign. Flags end at the
first argument that is none, or at two hyphens alone. Of a flag that is given
twice the last value counts.
-/

/-- What a flag takes. -/
inductive Shape where
  | switch | text | natural | integer
deriving DecidableEq

inductive Value where
  | switch (on : Bool)
  | text (text : Text)
  | natural (n : Nat)
  | integer (n : Int)
deriving DecidableEq

/-- The flags a command knows. -/
abbrev Known := List (String × Shape)

/-- The flags that were given, in order. -/
abbrev Given := List (Text × Value)

/-- Why arguments are refused. -/
inductive FlagFault where
  | malformed (argument : Text)
  | unknown (name : Text)
  | helpWanted
  | valueMissing (name : Text)
  | badSwitch (name value : Text)
  | badValue (name value : Text)
deriving DecidableEq

def FlagFault.text : FlagFault → Text
  | malformed argument => "bad flag syntax: " ++ argument
  | unknown name => "flag provided but not defined: -" ++ name
  | helpWanted => "flag: help requested"
  | valueMissing name => "flag needs an argument: -" ++ name
  | badSwitch name value =>
    "invalid boolean value " ++ value.quote ++ " for -" ++ name ++ ": parse error"
  | badValue name value =>
    "invalid value " ++ value.quote ++ " for flag -" ++ name ++ ": parse error"

def switch? (value : Text) : Option Bool :=
  if ["1", "t", "T", "true", "TRUE", "True"].any fun word => value == Text.ofString word then
    some true
  else if ["0", "f", "F", "false", "FALSE", "False"].any fun word =>
      value == Text.ofString word then
    some false
  else none

def Shape.read (shape : Shape) (name value : Text) : Except FlagFault Value :=
  match shape with
  | .text => .ok (.text value)
  | .switch =>
    match switch? value with
    | some on => .ok (.switch on)
    | none => .error (.badSwitch name value)
  | .natural =>
    match Text.unsigned? value.bytes with
    | some n => if n < 0x10000000000000000 then .ok (.natural n) else .error (.badValue name value)
    | none => .error (.badValue name value)
  | .integer =>
    match Text.signed? value.bytes with
    | some n =>
      if -0x8000000000000000 ≤ n ∧ n < 0x8000000000000000 then .ok (.integer n)
      else .error (.badValue name value)
    | none => .error (.badValue name value)

/-- The name in an argument and the value behind its equals sign, if there is one. -/
def splitFlag (body : List UInt8) : Text × Option Text :=
  match body.span (· != 61) with
  | (name, []) => (⟨name⟩, none)
  | (name, _ :: value) => (⟨name⟩, some ⟨value⟩)

inductive Argument where
  /-- Flags end before it. -/
  | other
  /-- Flags end behind it. -/
  | ending
  | flag (body : List UInt8)
deriving DecidableEq

def classify (argument : Text) : Argument :=
  match argument.bytes with
  | [45, 45] => .ending
  | 45 :: 45 :: body => .flag body
  | 45 :: b :: body => .flag (b :: body)
  | _ => .other

/-- Reads one flag. The number says how many of the arguments behind it belong to it. -/
def readFlag (known : Known) (argument : Text) (body : List UInt8) (rest : List Text) :
    Except FlagFault ((Text × Value) × Nat) :=
  if body.isEmpty || body.head? = some 45 || body.head? = some 61 then .error (.malformed argument)
  else
    let (name, value) := splitFlag body
    match known.find? fun entry => name == Text.ofString entry.1 with
    | none => if name = "help" ∨ name = "h" then .error .helpWanted else .error (.unknown name)
    | some (_, shape) =>
      match value, shape, rest with
      | some value, _, _ => (shape.read name value).map fun value => ((name, value), 0)
      | none, .switch, _ => .ok ((name, .switch true), 0)
      | none, _, [] => .error (.valueMissing name)
      | none, _, value :: _ => (shape.read name value).map fun value => ((name, value), 1)

/-- Reads flags; what follows them is not looked at. -/
def parseFlags (known : Known) : List Text → Except FlagFault Given
  | [] => .ok []
  | argument :: rest =>
    match classify argument with
    | .other | .ending => .ok []
    | .flag body => do
      let (entry, used) ← readFlag known argument body rest
      return entry :: (← parseFlags known (rest.drop used))
termination_by arguments => arguments.length
decreasing_by simp only [List.length_drop, List.length_cons]; omega

namespace Given

def find? (given : Given) (name : Text) : Option Value := given.reverse.lookup name

/-- The text of a flag; empty when it is not given. -/
def text (given : Given) (name : Text) : Text :=
  match Given.find? given name with
  | some (.text t) => t
  | _ => ∅

def switch? (given : Given) (name : Text) : Option Bool :=
  match Given.find? given name with
  | some (.switch on) => some on
  | _ => none

def isOn (given : Given) (name : Text) : Bool := (given.switch? name).getD false

def natural? (given : Given) (name : Text) : Option Nat :=
  match Given.find? given name with
  | some (.natural n) => some n
  | _ => none

def integer? (given : Given) (name : Text) : Option Int :=
  match Given.find? given name with
  | some (.integer n) => some n
  | _ => none

end Given

end DexLift.Command
