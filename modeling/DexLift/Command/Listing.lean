import DexLift.Command.Basic
import DexLift.Jvm.Disassembler

/-!
# The command that lists classes

Classes with their members, as text or as a document.
-/

namespace DexLift.Command

def dumpFlags : Known :=
  [("in", .text), ("json", .switch), ("no-color", .switch), ("class", .text), ("verbose", .switch)]

structure Member where
  name : Text
  desc : Text
  access : Text
  /-- The initial value of a field; empty when there is none. -/
  value : Text := ∅
  /-- Where the last instruction of a method is, counted from one; zero without code. -/
  units : Nat := 0

structure Summary where
  name : Text
  access : Text
  super : Text
  interfaces : List Text
  source : Text
  fields : List Member
  methods : List Member

def Member.ofField (f : Dex.Field) : Member :=
  { name := f.ref.name, desc := f.ref.type, access := f.access.words Access.fieldFlags
    value := (f.value.map Dex.Value.text).getD ∅ }

def Member.ofMethod (m : Dex.Method) : Member :=
  let last := m.code.bind fun code => code.instructions.getLast?
  { name := m.ref.name, desc := m.ref.desc, access := m.access.words Access.methodFlags
    units := (last.map fun i => i.addr.toNat + 1).getD 0 }

def Summary.ofClass (c : Dex.ClassNode) : Summary :=
  let d := c.definition
  { name := Descriptor.className c.name
    access := d.access.words Access.classFlags
    super := if d.super.isEmpty then ∅ else Descriptor.className d.super
    interfaces := d.interfaces.map Descriptor.className
    source := d.source
    fields := c.fields.map Member.ofField
    methods := c.methods.map Member.ofMethod }

/-- Words with a blank after them, when there are any. -/
def spaced (words : Text) : Text := if words.isEmpty then ∅ else words ++ " "

def around (before : Text) (t : Text) (behind : Text) : Text :=
  if t.isEmpty then ∅ else before ++ t ++ behind

def Summary.text (s : Summary) : Text :=
  let field (m : Member) : Text :=
    "  " ++ spaced m.access ++ m.name ++ " " ++ m.desc ++ around " = " m.value ∅ ++ "\n"
  let method (m : Member) : Text :=
    "  " ++ spaced m.access ++ m.name ++ m.desc ++
      (if m.units > 0 then " [" ++ Text.ofNat m.units ++ " units]" else ∅) ++ "\n"
  let implements : Text :=
    if s.interfaces.isEmpty then ∅ else " implements " ++ Text.join ", " s.interfaces
  let heading := "\n" ++ spaced s.access ++ s.name ++ around " extends " s.super ∅ ++ implements ++
    around " (" s.source ")" ++ "\n"
  heading ++ Text.concat (s.fields.map field ++ s.methods.map method)

open Json in
def Member.document (m : Member) : Json.Value :=
  .object (textMember "name" m.name ++ textMember "desc" m.desc ++
    textUnlessEmpty "access" m.access ++ textUnlessEmpty "value" m.value ++
    numberUnlessZero "insns" m.units)

open Json in
def Summary.document (s : Summary) : Json.Value :=
  .object (textMember "name" s.name ++ textUnlessEmpty "access" s.access ++
    textUnlessEmpty "super" s.super ++ listUnlessEmpty "interfaces" (s.interfaces.map .text) ++
    textUnlessEmpty "source_file" s.source ++
    listUnlessEmpty "fields" (s.fields.map Member.document) ++
    listUnlessEmpty "methods" (s.methods.map Member.document))

def dump (given : Given) : Command Unit := do
  let source := given.text "in"
  if source.isEmpty then refuse "--in is required"
  let l ← load source
  let chosen := (← select l.classes (given.text "class")).map Summary.ofClass
  let version := l.input.file.header.version
  if given.isOn "json" then
    let listed : Json.Value := .list (chosen.map Summary.document)
    let document : Json.Value :=
      .object (Json.one "classes" listed ++ Json.textMember "version" version)
    print document.document
  else
    print ("dex " ++ version ++ ", " ++ Text.ofNat l.classes.length ++ " classes\n")
    chosen.forM fun s => print s.text

/-!
## The command that lists class files

The input is one class file, or an archive of which all class files are listed or
the one that is asked for.
-/

def listFlags : Known := [("in", .text), ("class", .text), ("c", .switch)]

def listing (data : ByteArray) (withCode : Bool) : Outcome Text :=
  (Jvm.ClassFile.decode data).map fun c => c.listing withCode

def archiveFailure (path note : Text) (fault : Archive.Fault) : Failure :=
  ⟨[.detail note], .other (fault.text (some path))⟩

def listEntries (path : Text) (data : ByteArray) (entries : List Archive.Entry) (withCode : Bool) :
    Command Unit :=
  entries.forM fun e => do
    match e.read data with
    | .error fault => throw (.failed (archiveFailure path e.name fault))
    | .ok content => print (← ofOutcome ((listing content withCode).under (.detail e.name)))

def list (given : Given) : Command Unit := do
  let path := given.text "in"
  let wanted := given.text "class"
  let withCode := (given.switch? "c").getD true
  if path.isEmpty then refuse "--in is required"
  let isArchive := path.endsWith ".jar" || path.endsWith ".zip"
  let note : Text := if isArchive then "open archive" else "read class"
  let content ← require (under note ((← get).tree.read path))
  let data : ByteArray := ⟨content.toArray⟩
  if isArchive then
    match Archive.entries data with
    | .error fault => throw (.failed (archiveFailure path note fault))
    | .ok entries =>
      let chosen := entries.filter fun e =>
        e.name.endsWith ".class" && (wanted.isEmpty || e.name == wanted ++ ".class")
      listEntries path data chosen withCode
      if !wanted.isEmpty && chosen.isEmpty then refuse (wanted ++ " not in " ++ path)
  else print (← ofOutcome (listing data withCode))

end DexLift.Command
