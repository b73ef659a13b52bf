import DexLift.Text.Utf8
import DexLift.Failure

/-!
# Paths

A path is text with slashes between its parts. The functions here look at the
text alone and never at what exists under the name.
-/

namespace DexLift

namespace Path

/-- The byte between the parts of a path. -/
def slash : UInt8 := 47

/-- The part that names the directory itself. -/
def here : Text := "."

/-- The part that names the directory above. -/
def above : Text := ".."

def parts (path : Text) : List Text := path.splitOn slash

def isRooted (path : Text) : Bool := path.first? == some slash

/-- Goes from a place, given by its parts with the last one first, to one of its parts. The way up
takes the last part back; above the root there is only the root, and a path that does not begin
there keeps its way up. -/
def step (rooted : Bool) (place : List Text) (part : Text) : List Text :=
  if part.isEmpty || part == here then place
  else if part == above then
    match place with
    | [] => if rooted then [] else [above]
    | last :: rest => if last == above then above :: place else rest
  else part :: place

/-- The shortest path of the same meaning. -/
def clean (path : Text) : Text :=
  let rooted := isRooted path
  let body := Text.join "/" ((parts path).foldl (step rooted) []).reverse
  if rooted then "/" ++ body else if body.isEmpty then here else body

/-- Paths one below the other, in their shortest form; empty ones do not count. -/
def join (paths : List Text) : Text :=
  let present := paths.filter fun path => !path.isEmpty
  if present.isEmpty then ∅ else clean (Text.join "/" present)

def lastBytes (path : Text) : List UInt8 := (path.bytes.reverse.takeWhile (· != slash)).reverse

def directory (path : Text) : Text :=
  clean (path.take (path.length - (lastBytes path).length))

def trimSlashes (path : Text) : Text := ⟨(path.bytes.reverse.dropWhile (· == slash)).reverse⟩

def base (path : Text) : Text :=
  if path.isEmpty then here
  else
    let last := lastBytes (trimSlashes path)
    if last.isEmpty then "/" else ⟨last⟩

/-- The end of the last part from its last point on; empty when it has none. -/
def extension (path : Text) : Text :=
  let last := lastBytes path
  let behind := last.reverse.takeWhile (· != 46)
  if behind.length = last.length then ∅ else ⟨last.drop (last.length - behind.length - 1)⟩

/-- A path up to the slash before its last part; empty when there is no such slash. -/
def parent (path : Text) : Text :=
  let trimmed := trimSlashes path
  trimmed.take (trimmed.length - (lastBytes trimmed).length)

/-- The small letter of a capital one; the dotted capital of other alphabets belongs to `i`. -/
def small (code : Nat) : Nat :=
  if 65 ≤ code ∧ code ≤ 90 then code + 32 else if code = 0x130 then 105 else code

def isArchive (path : Text) : Bool :=
  let ending := Text.ofCodes ((extension path).runes.map fun r => small r.code)
  ending == (".jar" : Text) || ending == (".zip" : Text)

end Path

/-!
## A tree of files

Files and directories by the parts of their paths from the root. Names are looked
up part by part: every part but the last has to be a directory.
-/

namespace Files

/-- What stands under a name. -/
inductive Node where
  | file (content : List UInt8)
  | directory
deriving DecidableEq

/-- Why an operation on files is refused. -/
inductive Fault where
  | missing | notDirectory | isDirectory | taken | badName | longName | notMappable
deriving DecidableEq

def Fault.text : Fault → Text
  | missing => "no such file or directory"
  | notDirectory => "not a directory"
  | isDirectory => "is a directory"
  | taken => "file exists"
  | badName => "invalid argument"
  | longName => "file name too long"
  | notMappable => "no such device"

def Fault.failure (operation : String) (path : Text) (fault : Fault) : Failure :=
  ⟨[.detail (Text.ofString operation ++ " " ++ path)], .other fault.text⟩

structure Tree where
  nodes : List (List Text × Node) := []
  /-- The place where paths begin that do not begin at the root. -/
  here : List Text := []

namespace Tree

/-- What stands at a place; the root is a directory. -/
def node? (t : Tree) (place : List Text) : Option Node :=
  if place.isEmpty then some .directory else t.nodes.lookup place

def insert (t : Tree) (place : List Text) (node : Node) : Tree :=
  { t with nodes := t.nodes.filter (fun entry => entry.1 != place) ++ [(place, node)] }

def start (t : Tree) (path : Text) : List Text := if Path.isRooted path then [] else t.here

def below (t : Tree) (place : List Text) (name : Text) : Except Fault (List Text) :=
  if t.node? place ≠ some .directory then .error .notDirectory
  else if name.isEmpty || name == Path.here then .ok place
  else if name == Path.above then .ok place.dropLast
  else if name.length > 255 then .error .longName
  else .ok (place ++ [name])

def enter (t : Tree) (place : List Text) (name : Text) : Except Fault (List Text) := do
  let next ← t.below place name
  if (t.node? next).isSome then return next else throw .missing

/-- Whether a path can be looked up at all. -/
def checkPath (path : Text) : Except Fault Unit :=
  if path.containsByte 0 then .error .badName
  else if path.isEmpty then .error .missing
  else if path.length ≥ 4096 then .error .longName
  else .ok ()

def find (t : Tree) (path : Text) : Except Fault (List Text × Node) := do
  checkPath path
  let place ← (Path.parts path).foldlM t.enter (t.start path)
  match t.node? place with
  | some node => return (place, node)
  | none => throw .missing

def placeOf (t : Tree) (path : Text) : Except Fault (List Text) := do
  checkPath path
  let parts := Path.parts (Path.trimSlashes path)
  let folder ← parts.dropLast.foldlM t.enter (t.start path)
  t.below folder (parts.getLast?.getD ∅)

def read (t : Tree) (path : Text) : Except Failure (List UInt8) :=
  match t.find path with
  | .error fault => .error (fault.failure "open" path)
  | .ok (_, .directory) => .error (Fault.isDirectory.failure "read" path)
  | .ok (_, .file content) => .ok content

/-- The content of a file that is mapped into memory; a directory cannot be. -/
def map (t : Tree) (path : Text) : Except Failure (List UInt8) :=
  match t.find path with
  | .error fault => .error (fault.failure "open" path)
  | .ok (_, .directory) => .error ⟨[], .other Fault.notMappable.text⟩
  | .ok (_, .file content) => .ok content

def makeDirectory (t : Tree) (path : Text) : Except Fault Tree := do
  let place ← t.placeOf path
  if (t.node? place).isSome then throw .taken else return t.insert place .directory

def putFile (t : Tree) (path : Text) (content : List UInt8) : Except Fault Tree := do
  let place ← t.placeOf path
  if path.bytes.getLast? = some Path.slash ∨ t.node? place = some .directory then
    throw .isDirectory
  return t.insert place (.file content)

def hasDirectory (t : Tree) (path : Text) : Bool :=
  match t.find path with
  | .ok (_, .directory) => true
  | _ => false

/-- Whether a place comes before another, part by part. -/
def placeLe : List Text → List Text → Bool
  | [], _ => true
  | _ :: _, [] => false
  | a :: as, b :: bs =>
    match compare a b with
    | .lt => true
    | .eq => placeLe as bs
    | .gt => false

def files (t : Tree) : List (List Text × List UInt8) :=
  let found := t.nodes.filterMap fun (place, node) =>
    match node with
    | .file content => some (place, content)
    | .directory => none
  found.mergeSort fun a b => placeLe a.1 b.1

end Tree

/-- Work on files. What was done before a step that fails stays done. -/
abbrev Work := ExceptT Failure (StateM Tree)

def change (operation : String) (path : Text) (result : Tree → Except Fault Tree) : Work Unit := do
  match result (← get) with
  | .ok tree => set tree
  | .error fault => throw (fault.failure operation path)

def noting {α : Type} (note : Text) (work : Work α) : Work α :=
  tryCatch work fun failure => throw (failure.under (.detail note))

/-- Makes a directory and those above it; `fuel` bounds the number of parts. -/
def makeDirectoriesWithin : (fuel : Nat) → Text → Work Unit
  | 0, _ => return ()
  | fuel + 1, path => do
    match (← get).find path with
    | .ok (_, .directory) => return ()
    | .ok (_, .file _) => throw (Fault.notDirectory.failure "mkdir" path)
    | .error _ =>
      let parent := Path.parent path
      if !parent.isEmpty then makeDirectoriesWithin fuel parent
      -- a path that ends in a point is there once its parents are
      change "mkdir" path fun t => if t.hasDirectory path then .ok t else t.makeDirectory path

/-- Makes a directory and those above it, as far as they do not exist. -/
def makeDirectories (path : Text) : Work Unit := makeDirectoriesWithin (path.length + 1) path

/-- Writes a file in place of what it held before. -/
def write (path : Text) (content : List UInt8) : Work Unit :=
  change "open" path fun t => t.putFile path content

end Files

end DexLift
