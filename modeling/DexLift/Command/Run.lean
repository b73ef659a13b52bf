import DexLift.Command.Graph
import DexLift.Command.Convert
import DexLift.Command.Listing

/-!
# Commands by name
-/

namespace DexLift.Command

/-- A command: the flags it knows and what it does with those that are given. -/
structure Entry where
  known : Known
  action : Given → Command Unit

def find? (name : Text) : Option Entry :=
  if name = "convert" then some ⟨convertFlags, convert⟩
  else if name = "dump" then some ⟨dumpFlags, dump⟩
  else if name = "ir" then some ⟨textFlags, showText⟩
  else if name = "cfg" then some ⟨drawFlags, draw⟩
  else if name = "graph" then some ⟨graphFlags, graph⟩
  else if name = "javap" then some ⟨listFlags, list⟩
  else none

inductive Ending where
  | done
  /-- There is no such command. -/
  | unknownCommand
  | badFlags (fault : FlagFault)
  | stopped (stop : Stop)

def execute (name : Text) (arguments : List Text) (tree : Files.Tree) : Ending × State :=
  match find? name with
  | none => (.unknownCommand, { tree })
  | some entry =>
    match parseFlags entry.known arguments with
    | .error fault => (.badFlags fault, { tree })
    | .ok given =>
      match entry.action given { tree } with
      | (.ok (), s) => (.done, s)
      | (.error stop, s) => (.stopped stop, s)

end DexLift.Command
