import DexLift.Command.Basic
import DexLift.Graph.Outline
import DexLift.Graph.Drawings
import DexLift.Graph.Page

/-!
# The commands that show the bodies of methods

Bodies are printed or written to files, as text or as drawings of their blocks.
-/

namespace DexLift.Command

def textFlags : Known :=
  [("in", .text), ("class", .text), ("out", .text), ("raw", .switch), ("verbose", .switch)]

def showText (given : Given) : Command Unit := do
  let source := given.text "in"
  if source.isEmpty then refuse "--in is required"
  let l ← load source
  let found ← bodies l (given.isOn "raw") (← select l.classes (given.text "class"))
  let folder := given.text "out"
  if folder.isEmpty then print (Text.join "\n" (found.map fun b => b.method.text))
  else found.forM fun b => files (Files.writeBody folder b.owner b.method)

def drawFlags : Known :=
  [("in", .text), ("out", .text), ("class", .text), ("style", .text), ("svg", .switch),
   ("raw", .switch), ("verbose", .switch)]

/-- Draws the blocks of methods, with statements or without. Methods without blocks are left out. -/
def draw (given : Given) : Command Unit := do
  let source := given.text "in"
  let folder := given.text "out"
  if source.isEmpty || folder.isEmpty then refuse "--in and --out are required"
  let style := if (Given.find? given "style").isSome then given.text "style" else "full"
  if style ≠ "full" ∧ style ≠ "lattice" then refuse ("unknown --style " ++ style.quote)
  let l ← load source
  let found ← bodies l (given.isOn "raw") (← select l.classes (given.text "class"))
  found.forM fun b => do
    let dot ← ofOutcome
      (if style = "full" then Graph.blocksDot .standard b.method
       else Graph.blocksOutline .standard b.method)
    if !dot.isEmpty then
      files (Files.writeDrawing folder (Files.drawingName b.owner b.method.title) dot)

/-!
## The command that draws calls

Drawings of the calls between methods and between classes, of what can be
reached, a summary in numbers and a page that ties them together.
-/

def graphFlags : Known :=
  [("in", .text), ("out", .text), ("title", .text), ("max-nodes", .integer), ("cfg", .switch),
   ("svg", .switch), ("verbose", .switch)]

/-- Draws the blocks of the methods that can be reached; the number of drawings. -/
def drawReachable (l : Loaded) (reached : Std.HashSet Text) (folder : Text) : Command Nat := do
  let found := (← bodies l false l.classes).filter fun b =>
    reached.contains (b.owner ++ "." ++ b.method.title)
  let drawn ← found.mapM fun b => do
    let dot ← ofOutcome (Graph.blocksDot .standard b.method)
    if dot.isEmpty then return 0
    let name := Graph.fileName (b.owner ++ "." ++ b.method.title)
    files (Files.writeDrawing folder ("cfg/" ++ name) dot)
    return 1
  return drawn.foldr (· + ·) 0

/-- Draws the calls in a file. -/
def graph (given : Given) : Command Unit := do
  let source := given.text "in"
  let folder := given.text "out"
  if source.isEmpty || folder.isEmpty then refuse "--in and --out are required"
  let title := if (given.text "title").isEmpty then Path.base source else given.text "title"
  let limit := (given.integer? "max-nodes").getD 500
  files (Files.noting "mkdir out" (Files.makeDirectories folder))
  let l ← load source
  let all := Graph.callers l.input.file l.classes
  let entries := Graph.entryPoints all
  let reached := Graph.reachable all entries
  let stats := Graph.stats all
  let draw (name : Text) (dot : Text) : Command Unit := files (Files.writeDrawing folder name dot)
  draw "callgraph" (Graph.callsDot .standard all title limit)
  draw "classgraph" (Graph.classesDot .standard all (title ++ " (class level)") limit)
  draw "reachable" (Graph.reachableDot .standard all reached entries (title ++ " (reachable)"))
  draw "lattice" (Graph.callsOutline .standard all title)
  let drawn ← if given.isOn "cfg" then drawReachable l reached folder else pure 0
  files (Files.writeStats folder stats)
  let index : Graph.Index :=
    { title, stats, entries, reachable := reached.size, blockDrawings := drawn }
  files (Files.noting "create index.html"
    (Files.write (Path.join [folder, "index.html"]) (Graph.page index).bytes))

end DexLift.Command
