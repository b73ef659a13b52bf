import DexLift.Command.Run

/-!
# The program

Brings the files that the arguments name into a tree, runs the command on it, and
writes what changed.
-/

namespace DexLift

namespace Program

/-- How the program is used. -/
def usage : String :=
  "dex2jar: Dalvik bytecode to JVM class files

Usage:
  dex2jar convert --in <dex|apk> --out <dir|jar>   Convert every class
  dex2jar dump    --in <dex|apk> [--json]           List classes and members
  dex2jar ir      --in <dex|apk> [--class C]        Print the IR of each method
  dex2jar cfg     --in <dex|apk> --out <dir>        Per-method control flow graphs
  dex2jar graph   --in <dex|apk> --out <dir>        Call graph, class graph and HTML index
  dex2jar javap   --in <class|jar> [--class C]      Disassemble class files

Convert flags:
  --config <file>           YAML options (flags given explicitly win)
  --keep-debug              Keep debug info (line numbers)
  --skip-code               Drop all method bodies
  --keep-clinit             Keep <clinit> when --skip-code is set
  --skip-exception          Drop try/catch information
  --ignore-read-exception   Skip classes that fail to read
  --reuse-reg               Share JVM slots between unrelated locals
  --topological-sort        Accepted; statements keep DEX order
  --optimize-sync           Drop empty synchronized blocks
  --print-ir                Print IR to stderr while converting
  --major <n>               Class file major version (default 52)
  --skip <list>             Comma-separated classes or package/ prefixes
  --strict                  Abort on the first failing class or method
  --report <dir>            Write report.json
  --verbose                 Debug logging
"

/-- The texts in arguments that may be paths: whole arguments, and values behind an equals sign. -/
def candidates (arguments : List String) : List Text :=
  arguments.flatMap fun argument =>
    let text := Text.ofString argument
    text :: ((Command.splitFlag text.bytes).2).toList

def placeOf (here : List Text) (path : Text) : List Text :=
  let rooted := Path.isRooted path
  let start := if rooted then [] else here.reverse
  ((Path.parts path).foldl (Path.step true) start).reverse

def pathOf (place : List Text) : String := ("/" ++ Text.join "/" place).toString?.getD "/"

def bring (tree : Files.Tree) (place : List Text) : IO Files.Tree := do
  let mut tree := tree
  for place in (List.range (place.length + 1)).map place.take do
    let path := (← IO.currentDir) / pathOf place
    if (← path.pathExists) then
      let node ← if (← path.isDir) then pure Files.Node.directory
        else pure (.file (← IO.FS.readBinFile path).toList)
      tree := tree.insert place node
  return tree

def store (old new : Files.Tree) : IO Unit := do
  for (place, node) in new.nodes do
    if old.node? place ≠ some node then
      match node with
      | .directory => IO.FS.createDirAll (pathOf place)
      | .file content => IO.FS.writeBinFile (pathOf place) ⟨content.toArray⟩

def runCommand (name : String) (arguments : List String) : IO UInt32 := do
  let working := Text.ofString (← IO.currentDir).toString
  let here := placeOf [] working
  let mut tree : Files.Tree := { here }
  for path in candidates arguments do
    tree ← bring tree (placeOf here path)
  let (ending, state) := Command.execute name (arguments.map Text.ofString) tree
  let stderr ← IO.getStderr
  for notice in state.notices do
    stderr.write notice.toByteArray
  store tree state.tree
  (← IO.getStdout).write state.output.toByteArray
  match ending with
  | .done => return 0
  | .unknownCommand =>
    stderr.putStr s!"unknown command: {name}\n{usage}"
    return 1
  | .badFlags fault =>
    stderr.write (fault.text ++ "\n").toByteArray
    return 2
  | .stopped (.failed failure) =>
    stderr.write ("error: " ++ failure.message ++ "\n").toByteArray
    return 1
  | .stopped .crashed =>
    stderr.putStr "error: malformed input\n"
    return 2
  | .stopped .endless =>
    stderr.putStr "error: cyclic class hierarchy\n"
    return 2

end Program

end DexLift

def main (arguments : List String) : IO UInt32 := do
  match arguments with
  | [] =>
    IO.eprint DexLift.Program.usage
    return 1
  | name :: rest =>
    if name = "help" ∨ name = "-h" ∨ name = "--help" then
      IO.eprint DexLift.Program.usage
      return 0
    DexLift.Program.runCommand name rest
