import DexLift.Command.Basic

/-!
# The command that converts

Options come from a configuration file, if one is named; flags that are given
override it.
-/

namespace DexLift.Command

def convertFlags : Known :=
  [("in", .text), ("out", .text), ("config", .text), ("keep-debug", .switch),
   ("skip-code", .switch), ("keep-clinit", .switch), ("skip-exception", .switch),
   ("ignore-read-exception", .switch), ("reuse-reg", .switch), ("topological-sort", .switch),
   ("optimize-sync", .switch), ("print-ir", .switch), ("major", .natural), ("skip", .text),
   ("strict", .switch), ("report", .text), ("verbose", .switch)]

def readConfig (path : Text) : Command Options := do
  let content ← require (under "convert: read config" ((← get).tree.read path))
  match Config.parse ⟨content⟩ with
  | .ok options => return options
  | .error fault => throw (.failed (fault.failure path))

def override (o : Options) (given : Given) : Options :=
  { skipDebug := ((given.switch? "keep-debug").map not).getD o.skipDebug
    skipCode := (given.switch? "skip-code").getD o.skipCode
    keepClinit := (given.switch? "keep-clinit").getD o.keepClinit
    skipException := (given.switch? "skip-exception").getD o.skipException
    ignoreReadException := (given.switch? "ignore-read-exception").getD o.ignoreReadException
    reuseRegister := (given.switch? "reuse-reg").getD o.reuseRegister
    topologicalSort := (given.switch? "topological-sort").getD o.topologicalSort
    printIr := (given.switch? "print-ir").getD o.printIr
    optimizeSynchronized := (given.switch? "optimize-sync").getD o.optimizeSynchronized
    major := ((given.natural? "major").map UInt16.ofNat).getD o.major
    skip :=
      if (Given.find? given "skip").isSome then Options.patterns (given.text "skip") else o.skip }

/-- Converts the classes of a file into a directory or an archive. -/
def convert (given : Given) : Command Unit := do
  let source := given.text "in"
  let target := given.text "out"
  if source.isEmpty || target.isEmpty then refuse "--in and --out are required"
  let config := given.text "config"
  let options ← if config.isEmpty then pure Options.standard else readConfig config
  if let some major := given.natural? "major" then
    if major < 45 || major > 0xffff then
      refuse ("--major " ++ Text.ofNat major ++ " out of range")
  let data ← readInput source
  let opened ← files (Files.openTarget target)
  let settings : Convert.Settings :=
    { options := override options given, strict := given.isOn "strict" }
  let output : Files.Output := { tree := (← get).tree, target := opened }
  let (stop, session) := Convert.run settings none Files.Output.sink output data
  modify fun s => { s with tree := session.sink.tree }
  session.record.printed.forM notify
  let told := session.record.log.filter fun entry => given.isOn "verbose" || entry.level ≠ .debug
  told.forM fun entry => notify entry.text
  let folder := given.text "report"
  if !folder.isEmpty then
    files (Files.noting "mkdir report" (Files.makeDirectories folder))
    files (Files.writeReport folder session.record.report)
  if let some stop := stop then throw stop
  let report := session.record.report
  notify ("wrote " ++ target ++ ": " ++ Text.ofNat report.written ++ " classes, " ++
    Text.ofNat report.skipped.length ++ " skipped, " ++ Text.ofNat report.stubs ++ " stubs\n")

end DexLift.Command
