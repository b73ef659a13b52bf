import DexLift.Yaml.Node
import DexLift.Dex.File
import DexLift.Jvm.ClassFile

/-!
# Options of a conversion
-/

namespace DexLift

/-- What a conversion keeps, leaves out and writes. -/
structure Options where
  skipDebug : Bool := false
  skipCode : Bool := false
  keepClinit : Bool := false
  skipException : Bool := false
  ignoreReadException : Bool := false
  /-- Lets locals that are not needed at the same time share a slot. -/
  reuseRegister : Bool := false
  /-- Accepted; statements keep their order. -/
  topologicalSort : Bool := false
  printIr : Bool := false
  /-- Leaves out synchronized blocks without content. -/
  optimizeSynchronized : Bool := false
  /-- The version of the class files; zero means the default one. -/
  major : UInt16 := 0
  /-- Classes, or packages with a slash at their end, that are left out. -/
  skip : List Text := []

namespace Options

/-- The options when nothing is said about them. -/
def standard : Options := { skipDebug := true, major := Jvm.defaultMajor }

/-- The part that reading a file depends on. -/
def reading (o : Options) : Dex.ReadOptions :=
  { skipDebug := o.skipDebug, skipCode := o.skipCode, keepClinit := o.keepClinit
    skipException := o.skipException, ignoreReadException := o.ignoreReadException }

/-- Whether a pattern stands for a class, given by its internal name. -/
def matchesName (pattern name : Text) : Bool :=
  pattern == name || (pattern.endsWith "/" && name.startsWith pattern)

/-- Whether a class is left out. -/
def isSkipped (o : Options) (name : Text) : Bool := o.skip.any (matchesName · name)

/-- The patterns in a list with commas; empty ones do not count. -/
def patterns (list : Text) : List Text :=
  ((list.splitOn 44).map Text.trim).filter fun part => !part.isEmpty

end Options

/-!
## Configuration files

A configuration is a YAML mapping from the names of options to their values.
Truth values may be spelled in the older ways too. An option without a value
keeps its default. The classes to skip are a sequence of texts.
-/

namespace Config

/-- Why a configuration is refused. -/
inductive Fault where
  /-- It cannot be read as a mapping of options. -/
  | unreadable
  /-- The version of class files is too old. -/
  | major (version : UInt16)
deriving DecidableEq

def Fault.failure (path : Text) : Fault → Failure
  | unreadable => ⟨[.detail ("convert: parse " ++ path)], .other "yaml: unreadable configuration"⟩
  | major version =>
    ⟨[], .other ("convert: " ++ path ++ ": major version " ++ Text.ofNat version.toNat ++
      " out of range")⟩

def isOneOf (words : List String) (t : Text) : Bool := words.any fun word => t == Text.ofString word

def truth? : Yaml.Value → Option Bool
  | .bool b => some b
  | .text t =>
    if isOneOf ["y", "Y", "yes", "Yes", "YES", "on", "On", "ON"] t then some true
    else if isOneOf ["n", "N", "no", "No", "NO", "off", "Off", "OFF"] t then some false
    else none
  | _ => none

/-- A version number of sixteen bits. -/
def version? : Yaml.Value → Option UInt16
  | .int n | .float n => if 0 ≤ n ∧ n < 65536 then some (UInt16.ofNat n.toNat) else none
  | _ => none

def scalar? : Yaml.Node → Option Yaml.Value
  | .scalar tag isPlain text => Yaml.valueOf? tag isPlain text
  | _ => none

/-- A node read as a text, which it is however it is spelled; nothing at all is no text. The outer
option tells whether the node can be read. -/
def text? : Yaml.Node → Option (Option Text)
  | .scalar tag isPlain text => do
    match ← Yaml.valueOf? tag isPlain text with
    | .null => return none
    | .text t => return some t
    | _ => return some text
  | _ => none

/-- The texts of a sequence; items without a value are left out. -/
def texts? : Yaml.Node → Option (List Text)
  | .sequence items => do return (← items.mapM text?).filterMap id
  | node => do if (← scalar? node) = .null then return [] else none

def apply (o : Options) (name : Text) (node : Yaml.Node) : Option Options :=
  let set {α : Type} (read? : Yaml.Value → Option α) (change : α → Options) : Option Options := do
    let value ← scalar? node
    if value = .null then return o
    return change (← read? value)
  if name = "skip_debug" then set truth? fun b => { o with skipDebug := b }
  else if name = "skip_code" then set truth? fun b => { o with skipCode := b }
  else if name = "keep_clinit" then set truth? fun b => { o with keepClinit := b }
  else if name = "skip_exception" then set truth? fun b => { o with skipException := b }
  else if name = "ignore_read_exception" then
    set truth? fun b => { o with ignoreReadException := b }
  else if name = "reuse_register" then set truth? fun b => { o with reuseRegister := b }
  else if name = "topological_sort" then set truth? fun b => { o with topologicalSort := b }
  else if name = "print_ir" then set truth? fun b => { o with printIr := b }
  else if name = "optimize_synchronized" then
    set truth? fun b => { o with optimizeSynchronized := b }
  else if name = "major" then set version? fun major => { o with major }
  else if name = "skip" then (texts? node).map fun skip => { o with skip }
  else none

/-- Whether a key asks for the entries of other mappings. -/
def isMerge : Yaml.Node → Bool
  | .scalar tag isPlain text =>
    text == "<<" && match tag with
    | none => isPlain
    | some tag => isPlain && tag == "!" || tag == "tag:yaml.org,2002:merge"
  | _ => false

/-- The entries of a mapping by name, those of mappings it merges behind its own. No text may occur
twice among its keys. Entries without a name are left out. At most `fuel` mappings lie within each
other. -/
def entries? : (fuel : Nat) → Yaml.Node → Option (List (Text × Yaml.Node))
  | fuel + 1, .mapping entries => do
    let keys ← entries.mapM fun (key, _) =>
      match key with
      | .scalar _ _ text => some text
      | _ => none
    if keys.eraseDups.length < keys.length then none
    let (merges, own) := entries.partition fun (key, _) => isMerge key
    let own ← own.mapM fun (key, node) => do return (← text? key).map fun name => (name, node)
    let sources ← match merges with
      | [] => some []
      | (_, .sequence items) :: _ => some items
      | (_, node) :: _ => some [node]
    return own.filterMap id ++ (← sources.mapM (entries? fuel)).flatten
  | _, _ => none

/-- Sets options by name; what is set first stays. -/
def applyAll (o : Options) (set : List Text) : List (Text × Yaml.Node) → Option Options
  | [] => some o
  | (name, node) :: rest =>
    if set.contains name then applyAll o set rest
    else do applyAll (← apply o name node) (name :: set) rest

def options? : Yaml.Node → Option Options
  | .mapping entries => do
    -- no document nests mappings deeper than this
    applyAll Options.standard [] (← entries? 10000 (.mapping entries))
  | node => do if (← scalar? node) = .null then return Options.standard else none

/-- The options of a configuration: the standard ones with what it sets. -/
def parse (data : Text) : Except Fault Options :=
  let options := do
    match ← Yaml.parse? data with
    | none => return Options.standard
    | some root => options? root
  match options with
  | none => .error .unreadable
  | some o => if o.major ≠ 0 ∧ o.major < 45 then .error (.major o.major) else .ok o

end Config

end DexLift
