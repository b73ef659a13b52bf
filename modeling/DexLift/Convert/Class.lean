import DexLift.Convert.Config
import DexLift.Emit.Method
import DexLift.Lower.Method
import DexLift.Resolve.Pipeline

/-!
# Declarations

What a class file declares about a class, its fields and its methods: access
flags, initial values and annotations. Some annotations are bookkeeping of the
system; two of these carry generic signatures and declared exceptions.
-/

namespace DexLift

namespace Access

/-- The flags that a class keeps; every class that is no interface gets one more. -/
def ofClass (access : Access) : UInt16 :=
  let kept := (access.bits &&& 0x7611).toUInt16
  if access.isInterface then kept else kept ||| Jvm.superFlag

def ofField (access : Access) : UInt16 := (access.bits &&& 0x50df).toUInt16

/-- The flags that a method keeps; a declared `synchronized` becomes the usual one. -/
def ofMethod (access : Access) : UInt16 :=
  let kept := (access.bits &&& 0x1dff).toUInt16
  if access.has 0x20000 then kept ||| 0x20 else kept

end Access

namespace Dex

/-- The letter of a number in annotations; handles and types of methods have none. -/
def NumberKind.letter? : NumberKind → Option UInt8
  | byte => some 66 | short => some 83 | char => some 67 | int => some 73 | long => some 74
  | float => some 70 | double => some 68 | boolean => some 90
  | methodType | methodHandle => none

namespace Value

mutual

/-- The value as class files express it; some values cannot be expressed. -/
def element? : Value → Option Jvm.ElementValue
  | number kind bits => kind.letter?.map fun letter => .number letter bits
  | string text => some (.string text)
  | type desc => some (.class desc)
  | enum ref => some (.enum ref.type ref.name)
  | nested desc elements => some (.nested desc (namedElements elements))
  | array values => some (.array (elementList values))
  | field _ | method _ | null => none

def elementList : List Value → List Jvm.ElementValue
  | [] => []
  | value :: rest =>
    match element? value with
    | some element => element :: elementList rest
    | none => elementList rest

def namedElements : List (Text × Value) → List (Text × Jvm.ElementValue)
  | [] => []
  | (name, value) :: rest =>
    match element? value with
    | some element => (name, element) :: namedElements rest
    | none => namedElements rest

end

/-- The text of a string or a type; empty for everything else. -/
def name : Value → Text
  | string text => text
  | type desc => desc
  | _ => ∅

/-- The initial value of a field, where a class file can hold one. -/
def fieldValue? (v : Value) : Option Jvm.FieldValue :=
  match v.element? with
  | some (.number tag bits) => some { tag, bits }
  | some (.string text) => some { tag := Jvm.stringTag, text }
  | some (.class desc) => some { tag := (Jvm.ElementValue.class desc).tag, text := desc }
  | some (.enum desc word) => some { tag := (Jvm.ElementValue.enum desc word).tag, text := desc }
  | some (.nested ..) | some (.array _) | none => none

end Value

/-- The annotations that go into the class file. -/
def visibleAnnotations (annotations : List Annotation) : List Jvm.Annotation :=
  (annotations.filter fun a => a.visibility != .system).map fun a =>
    { type := a.type, isVisible := a.visibility == .runtime
      elements := Value.namedElements a.elements }

def systemValues (type : Text) (annotations : List Annotation) : List Value :=
  match annotations.find? fun a => a.type == type with
  | some a => ((a.element? "value").map Value.elements).getD []
  | none => []

/-- The generic signature, which is given in pieces. -/
def signatureOf (annotations : List Annotation) : Text :=
  Text.concat ((systemValues "Ldalvik/annotation/Signature;" annotations).map Value.name)

def throwsOf (annotations : List Annotation) : List Text :=
  (systemValues "Ldalvik/annotation/Throws;" annotations).filterMap fun
    | .type desc => some (Descriptor.className desc)
    | _ => none

/-- A field as it is declared in a class file. Only static fields have initial values. -/
def Field.declaration (f : Field) : Jvm.Field :=
  { access := f.access.ofField, name := f.ref.name, desc := f.ref.type
    value := if f.access.isStatic then f.value >>= Value.fieldValue? else none
    signature := signatureOf f.annotations, annotations := visibleAnnotations f.annotations }

def Method.declaration (m : Method) : Jvm.Method :=
  { access := m.access.ofMethod, name := m.ref.name, desc := m.ref.desc
    throws := throwsOf m.annotations, signature := signatureOf m.annotations
    annotations := visibleAnnotations m.annotations }

def ClassDef.declaration (d : ClassDef) (major : UInt16) : Jvm.ClassFile :=
  { major, access := d.access.ofClass, name := Descriptor.className d.name
    super := if d.super.isEmpty then ∅ else Descriptor.className d.super
    interfaces := d.interfaces.map Descriptor.className, source := d.source
    signature := signatureOf d.annotations, annotations := visibleAnnotations d.annotations }

end Dex

/-!
## Converting a class

A method whose code cannot be converted gets a body that throws and says why.
What happens on the way is recorded: a report for the caller, and a log.
-/

namespace Convert

open Jvm (Pool Code)

/-- How important a log entry is. -/
inductive Level where
  | debug | info | warn
deriving DecidableEq

def Level.text : Level → String
  | debug => "debug" | info => "info" | warn => "warn"

/-- One line of the log, with named values. -/
structure LogEntry where
  level : Level
  message : String
  fields : List (String × Text)

def LogEntry.text (entry : LogEntry) : Text :=
  Text.join " " (Text.ofString entry.level.text :: Text.ofString entry.message ::
    entry.fields.map fun (name, value) => Text.ofString name ++ "=" ++ value) ++ "\n"

/-- Something that could not be converted. -/
structure Incident where
  /-- Reading, lowering or emitting. -/
  stage : String
  owner : Text
  /-- Empty when the whole class is meant. -/
  method : Text
  error : Text

/-- The result of a conversion in numbers and names. -/
structure Report where
  version : Text := ∅
  classes : Nat := 0
  written : Nat := 0
  skipped : List Text := []
  methods : Nat := 0
  stubs : Nat := 0
  incidents : List Incident := []

/-- A failure that need not end a conversion, as a handler is asked about it. -/
inductive Question where
  | ofClass (failure : Failure)
  | ofMethod (owner title : Text) (failure : Failure)

def Question.failure : Question → Failure
  | ofClass failure | ofMethod _ _ failure => failure

/-- What a handler does about a failure: it may write to the log, and it lets the failure pass or
names the one to end with. -/
structure Answer where
  lines : List LogEntry := []
  refusal : Option Failure := none

/-- Decides about failures, knowing what it was asked about before, the last question first. -/
def Handler : Type := List Question → Question → Answer

namespace Handler

/-- Lets every failure pass and warns about it. -/
def logging : Handler
  | _, .ofClass failure => { lines := [⟨.warn, "class skipped", [("error", failure.message)]⟩] }
  | _, .ofMethod owner title failure =>
    { lines := [⟨.warn, "method replaced by stub",
        [("class", owner), ("method", title), ("error", failure.message)]⟩] }

def strict : Handler := fun _ question => { refusal := some question.failure }

end Handler

/-- What is recorded during a conversion. -/
structure Record where
  report : Report := {}
  log : Array LogEntry := #[]
  /-- The methods that were printed. -/
  printed : Array Text := #[]
  /-- What the handler was asked about, the last question first. -/
  asked : List Question := []

/-- A step of a conversion. What was recorded before a step that fails stays recorded. -/
abbrev Recorded := ExceptT Stop (StateM Record)

def log (level : Level) (message : String) (fields : List (String × Text)) : Recorded Unit :=
  modify fun r => { r with log := r.log.push { level, message, fields } }

def report (change : Report → Report) : Recorded Unit :=
  modify fun r => { r with report := change r.report }

def incident (i : Incident) : Recorded Unit :=
  report fun r => { r with incidents := r.incidents ++ [i] }

/-- Asks the handler about a failure; the outcome is the failure to end with, if there is one. -/
def Handler.ask (handler : Handler) (question : Question) : StateM Record (Option Failure) :=
  modifyGet fun r =>
    let answer := handler r.asked question
    (answer.refusal, { r with asked := question :: r.asked, log := r.log ++ answer.lines })

/-- Asks the handler about a failure, and ends when it says so. -/
def Handler.consult (handler : Handler) (question : Question) : Recorded Unit := do
  if let some refusal ← handler.ask question then throw (.failed refusal)

/-- How a conversion is done. -/
structure Settings where
  options : Options
  /-- Stops at the first class or method that fails. -/
  strict : Bool := false

def Settings.handler (s : Settings) : Handler := if s.strict then .strict else .logging

/-- What the methods of a file refer to. -/
structure Input where
  file : Dex.File
  hierarchy : Hierarchy

def lowering {α : Type} (m : Dex.Method) (outcome : Outcome α) : Outcome α :=
  outcome.under (.lowering (Descriptor.className m.ref.owner) (m.ref.name ++ m.ref.desc))

def simplified (input : Input) (m : Dex.Method) : Outcome Ir.Method :=
  lowering m ((m.lower input.file).map Ir.Method.simplify)

def resolved (input : Input) (o : Options) (m : Dex.Method) (body : Ir.Method) :
    Outcome Ir.Method :=
  lowering m (body.resolve (some input.hierarchy) o.reuseRegister)

def lowered (input : Input) (o : Options) (m : Dex.Method) : Outcome Ir.Method := do
  resolved input o m (← simplified input m)

/-- The class whose instances stubs throw. -/
def unsupportedName : Text := "java/lang/UnsupportedOperationException"

/-- What a stub says about a failure, cut to 512 bytes. -/
def stubMessage (failure : Failure) : Text :=
  let message := "dex2jar: " ++ failure.message
  if message.length > 512 then (message.take 512).dropBroken else message

/-- The body of a method that could not be converted: it throws. -/
def stub (owner : Text) (m : Dex.Method) (failure : Failure) : Jvm.Asm Code := do
  let receiver : List Jvm.VType :=
    if m.access.isStatic then []
    else if m.ref.name = "<init>" then [.uninitializedThis]
    else [.object owner]
  let params ← Jvm.Asm.lift (m.ref.proto.params.mapM Jvm.VType.ofDesc)
  Jvm.Asm.setInitialFrame (receiver ++ params)
  Jvm.Asm.typeOp .new unsupportedName
  Jvm.Asm.op .dup
  Jvm.Asm.string (stubMessage failure)
  Jvm.Asm.invoke .invokespecial unsupportedName "<init>" "(Ljava/lang/String;)V" false
  Jvm.Asm.op .athrow
  Jvm.Asm.finish

/-- How bodies are emitted. -/
def emitOptions (s : Settings) (input : Input) : Ir.EmitOptions :=
  { hierarchy := some input.hierarchy, dropEmptyMonitors := s.options.optimizeSynchronized }

/-- The code of a method whose body is known, or the failure to find the body. -/
def emitCode (s : Settings) (input : Input) (owner : Text) (pool : Pool) :
    Outcome Ir.Method → Recorded (Except Failure Code × Pool)
  | .error (.failed failure) => return (.error failure, pool)
  | .error stop => throw stop
  | .ok ir =>
    let emitted := (ir.emit (emitOptions s input)).assemble pool
    match emitted.1.under (.emitting owner ir.title) with
    | .error (.failed failure) => return (.error failure, emitted.2)
    | .error stop => throw stop
    | .ok code => do
      log .debug "method emitted" [("class", owner), ("method", ir.title),
        ("bytes", Text.ofNat code.bytecode.length)]
      return (.ok code, emitted.2)

/-- The code of a method, and the pool with what the code needs. The failure of a method is a value:
it does not end the conversion. -/
def convertCode (s : Settings) (input : Input) (owner : Text) (m : Dex.Method) (pool : Pool) :
    Recorded (Except Failure Code × Pool) := do
  let body := simplified input m
  if let .ok ir := body then
    if s.options.printIr then modify fun r => { r with printed := r.printed.push ir.text }
  emitCode s input owner pool (body >>= resolved input s.options m)

def stageOf (failure : Failure) : String :=
  match failure.notes with
  | .emitting .. :: _ => "emit"
  | _ => "translate"

def convertMethod (handler : Handler) (s : Settings) (input : Input) (owner : Text) (m : Dex.Method)
    (pool : Pool) : Recorded (Jvm.Method × Pool) := do
  if m.code.isNone then return (m.declaration, pool)
  report fun r => { r with methods := r.methods + 1 }
  let (code, pool) ← convertCode s input owner m pool
  match code with
  | .ok code => return ({ m.declaration with code := some code }, pool)
  | .error failure =>
    let title := m.ref.name ++ m.ref.desc
    incident ⟨stageOf failure, owner, title, failure.message⟩
    handler.consult (.ofMethod owner title failure)
    let (outcome, pool) := (stub owner m failure).assemble pool
    match outcome.under (.emitting owner title) with
    | .error stop => throw stop
    | .ok code =>
      report fun r => { r with stubs := r.stubs + 1 }
      return ({ m.declaration with code := some code }, pool)

/-- The methods of the class file, one after the other. -/
def convertMethods (handler : Handler) (s : Settings) (input : Input) (owner : Text) :
    List Dex.Method → Pool → Recorded (List Jvm.Method × Pool)
  | [], pool => return ([], pool)
  | m :: rest, pool => do
    let (method, pool) ← convertMethod handler s input owner m pool
    let (methods, pool) ← convertMethods handler s input owner rest pool
    return (method :: methods, pool)

def declared (s : Settings) (c : Dex.ClassNode) : Jvm.ClassFile :=
  c.definition.declaration s.options.major

def classFile (s : Settings) (c : Dex.ClassNode) (methods : List Jvm.Method) (pool : Pool) :
    Jvm.ClassFile :=
  { declared s c with fields := c.fields.map Dex.Field.declaration, methods, pool }

/-- The bytes of a class; none when it cannot be written and is left out. -/
def writeClass (s : Settings) (handler : Handler) (c : Dex.ClassNode) :
    Outcome (List UInt8 × Pool) → Recorded (Option (List UInt8))
  | .ok (bytes, _) => return some bytes
  | .error (.failed failure) => do
    incident ⟨"emit", (declared s c).name, ∅, failure.message⟩
    handler.consult (.ofClass (failure.under (.emitting (declared s c).name ∅)))
    return none
  | .error stop => throw stop

/-- The bytes of a class file; none when the class cannot be written and is left out. -/
def convertClass (handler : Handler) (s : Settings) (input : Input) (c : Dex.ClassNode) :
    Recorded (Option (List UInt8)) := do
  let (methods, pool) ← convertMethods handler s input (declared s c).name c.methods {}
  writeClass s handler c (classFile s c methods pool).encode

end Convert

end DexLift
