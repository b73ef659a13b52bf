import DexLift.Convert.Run
import DexLift.Files.Tree
import DexLift.Graph.Calls
import DexLift.Text.Json

/-!
# Results in files

Where the bodies of methods, drawings and summaries are written, and how
summaries look.
-/

namespace DexLift.Files

/-- Whether a byte may stand in the name of a file. -/
def isFileByte (b : UInt8) : Bool :=
  (97 ≤ b && b ≤ 122) || (65 ≤ b && b ≤ 90) || (48 ≤ b && b ≤ 57) || b == 95 || b == 45 || b == 36

/-- A text as the name of a file: bytes that may not stand there become underscores. -/
def fileName (t : Text) : Text := ⟨t.bytes.map fun b => if isFileByte b then b else 95⟩

def bodyPath (folder owner title : Text) : Text :=
  Path.join [folder, "ir", owner, fileName title ++ ".txt"]

/-- The file of a drawing. Its name may have slashes. -/
def drawingPath (folder name : Text) : Text := Path.join [folder, name ++ ".dot"]

/-- The name of the drawing of a method below its class. -/
def drawingName (owner title : Text) : Text := owner ++ "/" ++ fileName title

def create (path text : Text) : Work Unit :=
  noting ("output: create " ++ path) (write path text.bytes)

def writeBody (folder owner : Text) (m : Ir.Method) : Work Unit := do
  let path := bodyPath folder owner m.title
  noting "output: mkdir ir" (makeDirectories (Path.directory path))
  create path m.text

def writeDrawing (folder name dot : Text) : Work Unit := do
  let path := drawingPath folder name
  noting "output: mkdir" (makeDirectories (Path.directory path))
  noting ("output: write " ++ path) (write path dot.bytes)

end Files

open Json

def Convert.Incident.document (i : Convert.Incident) : Value :=
  .object (textMember "stage" i.stage ++ textMember "class" i.owner ++
    textUnlessEmpty "method" i.method ++ textMember "error" i.error)

/-- The report of a conversion as a document. The time a conversion takes is not measured. -/
def Convert.Report.document (r : Convert.Report) : Value :=
  .object (textMember "dex_version" r.version ++ numberMember "classes" r.classes ++
    numberMember "written" r.written ++ listUnlessEmpty "skipped" (r.skipped.map .text) ++
    numberMember "methods" r.methods ++ numberMember "stubs" r.stubs ++
    listUnlessEmpty "failures" (r.incidents.map Convert.Incident.document) ++
    numberMember "elapsed_ns" 0)

def Graph.rankedDocument (ranked : List (Text × Nat)) : Value :=
  .list (ranked.map fun (name, n) =>
    .object (textMember "name" name ++ numberMember "count" n))

def Graph.Stats.document (s : Graph.Stats) : Value :=
  .object (numberMember "total_functions" s.functions ++ numberMember "total_calls" s.calls ++
    numberMember "external_calls" s.external ++ numberMember "unique_owners" s.owners ++
    one "kind_counts" (.object (s.kinds.map fun (kind, n) => (kind, .number n))) ++
    one "top_callers" (Graph.rankedDocument s.topCallers) ++
    one "top_callees" (Graph.rankedDocument s.topCallees) ++
    one "top_owners" (Graph.rankedDocument s.topOwners))

def Files.writeReport (folder : Text) (r : Convert.Report) : Files.Work Unit :=
  Files.create (Path.join [folder, "report.json"]) r.document.document

def Files.writeStats (folder : Text) (s : Graph.Stats) : Files.Work Unit :=
  Files.create (Path.join [folder, "stats.json"]) s.document.document

/-!
## Where class files are written

Class files go into a directory, or into an archive when the path looks like one.
Entry names come from untrusted input: a name that could leave the output is
refused before anything is written.
-/

namespace Files

/-- Whether a part of an entry name stays where it is or goes down. -/
def isPlainPart (part : Text) : Bool := !(part.isEmpty || part == Path.above)

/-- Whether an entry may be written under a name. -/
def isEntryName (name : Text) : Bool :=
  !name.containsByte 92 && (Path.parts name).all isPlainPart

def entryPath (folder name : Text) : Text := Path.join [folder, name]

/-- What class files are written into. -/
inductive Target where
  | folder (path : Text)
  /-- An archive with the entries it has so far. -/
  | archive (path : Text) (entries : List (Text × List UInt8))

/-- Files, and what is being written into. -/
structure Output where
  tree : Tree
  target : Target
  isClosed : Bool := false

def openTarget (path : Text) : Work Target := do
  if Path.isArchive path then
    let folder := Path.directory path
    noting ("jar: mkdir " ++ folder) (makeDirectories folder)
    noting ("jar: create " ++ path) (write path [])
    return .archive path []
  else
    noting ("jar: mkdir " ++ path) (makeDirectories path)
    return .folder path

def writeEntry (folder name : Text) (data : List UInt8) : Work Unit := do
  let path := entryPath folder name
  noting ("jar: mkdir for " ++ name) (makeDirectories (Path.directory path))
  noting ("jar: write " ++ name) (write path data)

namespace Output

def work (o : Output) (action : Work Unit) : Output × Option Failure :=
  let (result, tree) := action.run.run o.tree
  let failure := match result with
    | .ok () => none
    | .error failure => some failure
  ({ o with tree }, failure)

def put (o : Output) (name : Text) (data : List UInt8) : Output × Option Failure :=
  if o.isClosed then (o, some ⟨[], .sinkClosed⟩)
  else if !isEntryName name then (o, some ⟨[.detail name], .entryName⟩)
  else
    match o.target with
    | .folder folder => o.work (writeEntry folder name data)
    | .archive path entries =>
      if entries.any fun entry => entry.1 == name then
        (o, some ⟨[], .other ("jar: duplicate entry " ++ name)⟩)
      else if name.length > 65535 then
        (o, some ⟨[.detail ("jar: create entry " ++ name)],
          .other "zip: FileHeader.Name too long"⟩)
      else ({ o with target := .archive path (entries ++ [(name, data)]) }, none)

/-- Ends the writing; an archive gets its content. A second time nothing happens. -/
def close (o : Output) : Output × Option Failure :=
  if o.isClosed then (o, none)
  else
    let closed := { o with isClosed := true }
    match o.target with
    | .folder _ => (closed, none)
    | .archive path entries =>
      closed.work (noting "jar: close" (write path (Archive.encode entries)))

def sink : Convert.Sink Output := ⟨put, close⟩

end Output

end DexLift.Files
