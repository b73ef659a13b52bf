import DexLift.Dex.ClassData
import DexLift.Hierarchy

/-!
# The classes of a file

A file is told as a sequence of events, class by class: a class opens, its
fields and methods follow, it closes. A class that cannot be read gives one
failure and nothing else. Collecting the events gives back the classes; members
that come while no class is open are refused.
-/

namespace DexLift.Dex

/-- One step of the sequence. -/
inductive Event where
  | opens (definition : ClassDef)
  | field (field : Field)
  | method (method : Method)
  | closes (name : Text)

/-- An event, or the end of reading the class it would belong to. -/
abbrev EventResult := Except Stop Event

def classEvents (definition : ClassDef) (fields : List Field) (methods : List Method) :
    List Event :=
  .opens definition :: fields.map .field ++ methods.map .method ++ [.closes definition.name]

/-- The events of `left` classes from a position on. After a class that cannot be read the sequence
ends, unless such classes are to be ignored. -/
def File.eventsFrom (f : File) : (left index : Nat) → List EventResult
  | 0, _ => []
  | left + 1, index =>
    match f.readClass index with
    | (_, .ok (definition, fields, methods)) =>
      (classEvents definition fields methods).map .ok ++ f.eventsFrom left (index + 1)
    | (name, .error (.failed failure)) =>
      .error (.failed (failure.under (.classDef index name))) ::
        (if f.options.ignoreReadException then f.eventsFrom left (index + 1) else [])
    | (_, .error stop) => [.error stop]

/-- The events of all classes, in the order of the definitions. -/
def File.events (f : File) : List EventResult := f.eventsFrom f.classCount 0

structure ClassNode where
  definition : ClassDef
  fields : List Field := []
  methods : List Method := []

def ClassNode.name (c : ClassNode) : Text := c.definition.name

/-- What collecting events came to: the classes, the failures that were handled on the way and the
one that stopped the collection, if any did. -/
structure Collected where
  classes : List ClassNode := []
  handled : List Failure := []
  failed : Option Failure := none

/-- The state of a collection: the classes so far, the last of them first, and whether it is open.
-/
structure Collection where
  classes : List ClassNode := []
  isOpen : Bool := false
  handled : List Failure := []

namespace Collection

/-- The outcome when the collection ends here. -/
def finish (c : Collection) (failed : Option Failure) : Collected :=
  { classes := c.classes.reverse, handled := c.handled.reverse, failed }

/-- Changes the class that is open; when none is, the event is out of place. -/
def change (c : Collection) (update : ClassNode → ClassNode) : Option Collection :=
  match c.isOpen, c.classes with
  | true, head :: rest => some { c with classes := update head :: rest }
  | _, _ => none

def add (c : Collection) : Event → Option Collection
  | .opens definition => some { c with classes := { definition } :: c.classes, isOpen := true }
  | .field field => c.change fun node => { node with fields := field :: node.fields }
  | .method method => c.change fun node => { node with methods := method :: node.methods }
  | .closes _ => some { c with isOpen := false }

end Collection

/-- Members are gathered last first; this puts them in order. -/
def ClassNode.inOrder (c : ClassNode) : ClassNode :=
  { c with fields := c.fields.reverse, methods := c.methods.reverse }

/-- Collects events. A failure goes to `decide`, which lets it pass or names the failure to stop
with; it may remember what it was asked. -/
def collectFrom {η : Type} (decide : Failure → StateM η (Option Failure)) :
    List EventResult → Collection → StateM η (Outcome Collected)
  | [], state => return .ok (state.finish none)
  | .error (.failed failure) :: rest, state => do
    let state := { state with handled := failure :: state.handled }
    match ← decide failure with
    | some failure => return .ok (state.finish (some failure))
    | none => collectFrom decide rest { state with isOpen := false }
  | .error stop :: _, _ => return .error stop
  | .ok event :: rest, state =>
    match state.add event with
    | none => return .ok (state.finish (some ⟨[], .memberOutsideClass⟩))
    | some state => collectFrom decide rest state

def collectWith {η : Type} (decide : Failure → StateM η (Option Failure))
    (events : List EventResult) : StateM η (Outcome Collected) := do
  let outcome ← collectFrom decide events {}
  return outcome.map fun collected =>
    { collected with classes := collected.classes.map ClassNode.inOrder }

/-- Collects events into classes, when what is done about a failure depends on nothing else. -/
def collect (decide : Failure → Option Failure) (events : List EventResult) :
    Outcome Collected :=
  ((collectWith (fun failure => pure (decide failure)) events).run ()).1

def read (data : ByteArray) (options : ReadOptions) (decide : Failure → Option Failure) :
    Outcome (File × Collected) := do
  let f ← File.open data options
  let collected ← collect decide f.events
  return (f, collected)

def hierarchy (classes : List ClassNode) : Hierarchy :=
  classes.foldl (fun h c => h.add c.name c.definition.super c.definition.access.isInterface) .core

def findClass? (classes : List ClassNode) (name : Text) : Option Nat :=
  classes.findIdx? fun c => c.name == name

end DexLift.Dex
