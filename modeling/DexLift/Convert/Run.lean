import DexLift.Archive.Zip
import DexLift.Convert.Class

/-!
# Converting a file

Classes are converted one after the other and handed to a sink, which is closed
at the end whatever happened. Between two classes a conversion can be cancelled.
-/

namespace DexLift.Convert

/-- Where class files go. A sink may refuse an entry, and closing it may fail. -/
structure Sink (σ : Type) where
  put : σ → Text → List UInt8 → σ × Option Failure
  close : σ → σ × Option Failure

/-- What a conversion has come to. -/
structure Session (σ : Type) where
  sink : σ
  record : Record := {}
  /-- After each class the number of classes processed, and the number of all. -/
  progress : Array (Nat × Nat) := #[]

namespace Session

def step {σ α : Type} (session : Session σ) (action : Recorded α) : Except Stop α × Session σ :=
  let (outcome, record) := action.run.run session.record
  (outcome, { session with record })

/-- Takes a step that cannot fail. -/
def note {σ : Type} (session : Session σ) (action : Recorded Unit) : Session σ :=
  (session.step action).2

end Session

def readFailure (failure : Failure) : Failure :=
  match failure.notes with
  | .classDef _ name :: notes => { failure with notes := .readingClass name :: notes }
  | _ => failure.under (.readingClass ∅)

/-- Records a class that was passed over because it cannot be read. -/
def unreadable (failure : Failure) : Recorded Unit := do
  let (owner, inner) := match failure.notes with
    | .classDef _ name :: notes => (name, { failure with notes })
    | _ => (∅, failure)
  incident ⟨"read", owner, ∅, inner.message⟩
  log .debug "unreadable class skipped" [("class", owner), ("error", inner.message)]

/-- What is done about a class that cannot be read. The classes after it are lost unless such
classes are to be ignored, so then the handler is not asked. -/
def judgeUnreadable (handler : Handler) (s : Settings) (failure : Failure) :
    StateM Record (Option Failure) := do
  if s.options.ignoreReadException then
    match ← handler.ask (.ofClass (readFailure failure)) with
    | some refusal => return some refusal
    | none =>
      let _ ← (unreadable failure).run
      return none
  else return some (readFailure failure)

def readClasses (handler : Handler) (s : Settings) (data : ByteArray) :
    Recorded (Dex.File × List Dex.ClassNode) := do
  match (Archive.extract data >>= fun raw => Dex.File.open raw s.options.reading).under
    .container with
  | .error stop => throw stop
  | .ok file =>
    let collected ← ExceptT.mk (Dex.collectWith (judgeUnreadable handler s) file.events)
    match collected.failed with
    | some failure => throw (.failed failure)
    | none => return (file, collected.classes)

def cancelled : Failure := ⟨[], .other "context canceled"⟩

def deliver {σ : Type} (sink : Sink σ) (name : Text) (data : Option (List UInt8))
    (session : Session σ) : Option Stop × Session σ :=
  match data with
  | none => (none, session.note (report fun r => { r with skipped := r.skipped ++ [name] }))
  | some bytes =>
    let entry := name ++ ".class"
    let (state, refused) := sink.put session.sink entry bytes
    let session := { session with sink := state }
    match refused with
    | some failure => (some (.failed (failure.under (.writing entry))), session)
    | none =>
      (none, session.note do
        report fun r => { r with written := r.written + 1 }
        log .debug "converted" [("class", name)])

/-- Counts a class, and converts it unless it is to be left out. -/
def attempt {σ : Type} (s : Settings) (input : Input) (handler : Handler) (session : Session σ)
    (c : Dex.ClassNode) : Outcome (Option (List UInt8)) × Session σ :=
  let session := session.note (report fun r => { r with classes := r.classes + 1 })
  if s.options.isSkipped (Descriptor.className c.name) then (.ok none, session)
  else session.step (convertClass handler s input c)

/-- Converts classes from a position on. `cancelAfter` is the number of classes after which the
conversion is cancelled. -/
def convertClasses {σ : Type} (handler : Handler) (s : Settings) (cancelAfter : Option Nat)
    (sink : Sink σ) (input : Input) (total : Nat) :
    (index : Nat) → List Dex.ClassNode → Session σ → Option Stop × Session σ
  | _, [], session => (none, session)
  | index, c :: rest, session =>
    if cancelAfter.any (· ≤ index) then
      (some (.failed cancelled), session.note
        (log .info "conversion cancelled" [("processed", Text.ofNat index)]))
    else
      match attempt s input handler session c with
      | (.error stop, session) => (some stop, session)
      | (.ok data, session) =>
        match deliver sink (Descriptor.className c.name) data session with
        | (some stop, session) => (some stop, session)
        | (none, session) =>
          convertClasses handler s cancelAfter sink input total (index + 1) rest
            { session with progress := session.progress.push (index + 1, total) }

def convertAll {σ : Type} (handler : Handler) (s : Settings) (cancelAfter : Option Nat)
    (sink : Sink σ) (data : ByteArray) (session : Session σ) : Option Stop × Session σ :=
  match session.step (readClasses handler s data) with
  | (.error stop, session) => (some stop, session)
  | (.ok (file, classes), session) =>
    let total := classes.length
    let version := file.header.version
    let session := session.note do
      report fun r => { r with version }
      log .debug "dex loaded" [("version", version), ("classes", Text.ofNat total)]
    let input : Input := { file, hierarchy := Dex.hierarchy classes }
    convertClasses handler s cancelAfter sink input total 0 classes session

/-- Converts an input and closes the sink. A failure to close counts when nothing else failed. -/
def runWith {σ : Type} (handler : Handler) (s : Settings) (cancelAfter : Option Nat)
    (sink : Sink σ) (state : σ) (data : ByteArray) : Option Stop × Session σ :=
  let (stop, session) := convertAll handler s cancelAfter sink data { sink := state }
  let (closed, failure) := sink.close session.sink
  let late := failure.map fun failure => Stop.failed (failure.under (.writing ∅))
  (stop <|> late, { session with sink := closed })

def run {σ : Type} (s : Settings) (cancelAfter : Option Nat) (sink : Sink σ) (state : σ)
    (data : ByteArray) : Option Stop × Session σ :=
  runWith s.handler s cancelAfter sink state data

end DexLift.Convert
