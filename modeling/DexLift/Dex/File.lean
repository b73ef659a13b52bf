import DexLift.Dex.Cursor
import DexLift.Dex.Mutf8
import DexLift.Dex.Value

/-!
# DEX files

A file is a header, tables of identifiers and data. Opening it checks the
header, the place of every table and the whole string, type and prototype
tables; fields, methods and classes are decoded when they are asked for. The
string table keeps modified UTF-8 as it stands in the file.
-/

namespace DexLift.Dex

open Read

/-- What the reader leaves out or tolerates. -/
structure ReadOptions where
  skipDebug : Bool := false
  skipCode : Bool := false
  keepClinit : Bool := false
  skipException : Bool := false
  ignoreReadException : Bool := false
deriving DecidableEq

def ReadOptions.bits (o : ReadOptions) : Nat :=
  o.skipDebug.toNat + 2 * o.skipCode.toNat + 4 * o.keepClinit.toNat + 8 * o.skipException.toNat +
    16 * o.ignoreReadException.toNat

def ReadOptions.ofBits (bits : Nat) : ReadOptions :=
  { skipDebug := bits.testBit 0, skipCode := bits.testBit 1, keepClinit := bits.testBit 2
    skipException := bits.testBit 3, ignoreReadException := bits.testBit 4 }

/-- A table: how many entries it has and where it begins. -/
structure Section where
  size : UInt32
  offset : UInt32
deriving Inhabited

structure Header where
  version : Text
  checksum : UInt32
  fileSize : UInt32
  headerSize : UInt32
  strings : Section
  types : Section
  protos : Section
  fields : Section
  methods : Section
  classes : Section
  data : Section

/-- Something odd that does not keep the file from being read. -/
structure Diagnostic where
  offset : UInt32
  kind : Text
  message : Text

def Diagnostic.text (d : Diagnostic) : Text :=
  "[" ++ d.kind ++ "] 0x" ++ Text.hex d.offset.toNat 1 ++ ": " ++ d.message

structure File where
  header : Header
  options : ReadOptions
  diagnostics : List Diagnostic
  data : ByteArray
  strings : Array Text := #[]
  types : Array Text := #[]
  protos : Array Proto := #[]

def headerBytes : Nat := 0x70

/-- The format versions that are understood. -/
def supportedVersions : List Text := ["035", "037", "038", "039"]

def adlerStep (sums : Nat × Nat) (b : UInt8) : Nat × Nat :=
  let low := (sums.1 + b.toNat) % 65521
  (low, (sums.2 + low) % 65521)

def adler32 (data : ByteArray) (start : Nat) : UInt32 :=
  let sums := (data.extract start data.size).data.toList.foldl adlerStep (1, 0)
  UInt32.ofNat (sums.2 * 65536 + sums.1)

namespace File

def readAt {α : Type} (f : File) (offset : Nat) (read : Read α) : Outcome α :=
  (read (Cursor.ofOffset f.data offset)).1

/-- The failure of an index outside its table. -/
def outOfRange {α : Type} (what : String) (index : UInt32) : Outcome α :=
  Outcome.failWith .indexRange (what ++ " " ++ Text.ofNat index.toNat)

def string (f : File) (index : UInt32) : Outcome Text :=
  match f.strings[index.toNat]? with
  | some text => .ok text
  | none => outOfRange "string" index

def type (f : File) (index : UInt32) : Outcome Text :=
  match f.types[index.toNat]? with
  | some desc => .ok desc
  | none => outOfRange "type" index

def proto (f : File) (index : UInt32) : Outcome Proto :=
  match f.protos[index.toNat]? with
  | some proto => .ok proto
  | none => outOfRange "proto" index

/-- Two short indices and a long one: an entry of the field or the method table. -/
def memberEntry : Read (UInt32 × UInt32 × UInt32) := do
  let owner ← u16.orElse 0
  let second ← u16.orElse 0
  let name ← u32.orElse 0
  return (owner.toUInt32, second.toUInt32, name)

def field (f : File) (index : UInt32) : Outcome FieldRef := do
  if index ≥ f.header.fields.size then outOfRange "field" index
  else
    let (owner, type, name) ←
      f.readAt (f.header.fields.offset.toNat + index.toNat * 8) memberEntry
    let owner ← f.type owner
    let type ← f.type type
    let name ← f.string name
    return { owner, name, type }

def method (f : File) (index : UInt32) : Outcome MethodRef := do
  if index ≥ f.header.methods.size then outOfRange "method" index
  else
    let (owner, proto, name) ←
      f.readAt (f.header.methods.offset.toNat + index.toNat * 8) memberEntry
    let owner ← f.type owner
    let proto ← f.proto proto
    let name ← f.string name
    return { owner, name, proto }

def classCount (f : File) : Nat := f.header.classes.size.toNat

/-- The types listed at an offset; offset zero is the empty list. -/
def typeList (f : File) (offset : UInt32) : Outcome (List Text) :=
  if offset = 0 then .ok []
  else f.readAt offset.toNat do
    let count ← u32
    if count.toNat > (← remaining) / 2 then fail .endOfData
    else times (do lift (f.type (← u16.orElse 0).toUInt32)) count.toNat

def readString (f : File) (number : Nat) (offset : UInt32) : Outcome Text := do
  let name := "string " ++ Text.ofNat number
  let place := name ++ " at 0x" ++ Text.hex offset.toNat 1
  if offset = 0 ∨ offset.toNat ≥ f.data.size then Outcome.failWith .stringData place
  else
    let (units, start) ← f.readAt offset.toNat do
      let units ← uleb128.recast .stringData fun message => name ++ ": " ++ message
      return (units, ← position)
    let rest := (f.data.extract start f.data.size).data.toList
    match Mutf8.scan rest with
    | .error cause => Outcome.failWith cause place
    | .ok (size, found) =>
      if found % 0x100000000 ≠ units.toNat then
        Outcome.failWith .mutf8
          (name ++ ": " ++ Text.ofNat found ++ " utf-16 units, header says " ++
            Text.ofNat units.toNat)
      else return ⟨rest.take size⟩

def readTable {α : Type} (count first width : Nat) (entry : Nat → Nat → Outcome α) :
    Outcome (Array α) :=
  return (← (List.range count).mapM fun i => entry i (first + i * width)).toArray

/-- A word of a table that is known to lie in the file. -/
def word (f : File) (offset : Nat) : Outcome UInt32 := f.readAt offset (u32.orElse 0)

def withStrings (f : File) : Outcome File := do
  let table := f.header.strings
  let strings ← readTable table.size.toNat table.offset.toNat 4 fun i offset => do
    f.readString i (← f.word offset)
  return { f with strings }

def withTypes (f : File) : Outcome File := do
  let table := f.header.types
  let types ← readTable table.size.toNat table.offset.toNat 4 fun i offset => do
    Outcome.under (.detail ("type " ++ Text.ofNat i)) (f.string (← f.word offset))
  return { f with types }

def withProtos (f : File) : Outcome File := do
  let table := f.header.protos
  let protos ← readTable table.size.toNat table.offset.toNat 12 fun i offset =>
    Outcome.under (.detail ("proto " ++ Text.ofNat i)) do
      let result ← f.type (← f.word (offset + 4))
      let params ← f.typeList (← f.word (offset + 8))
      return { params, result }
  return { f with protos }

end File

/-- Size and offset of a table, as the header gives them. -/
def readSection : Read Section := do
  let size ← u32.orElse 0
  let offset ← u32.orElse 0
  return { size, offset }

def readHeader (version : Text) (size : Nat) : Read Header := do
  let checksum ← u32.orElse 0
  (skip 20).orElse ()
  let fileSize ← u32.orElse 0
  let headerSize ← u32.orElse 0
  let endian ← u32.orElse 0
  if endian = 0x78563412 then fail .bigEndian
  else if endian ≠ 0x12345678 then failWith .endianTag ("0x" ++ Text.hex endian.toNat 8)
  else if headerSize.toNat ≠ headerBytes then
    failWith .headerSize ("0x" ++ Text.hex headerSize.toNat 1)
  else if fileSize.toNat < headerBytes ∨ fileSize.toNat > size then
    failWith .fileTruncated
      ("file_size " ++ Text.ofNat fileSize.toNat ++ ", have " ++ Text.ofNat size ++ " bytes")
  else
    (skip 12).orElse ()
    let strings ← readSection
    let types ← readSection
    let protos ← readSection
    let fields ← readSection
    let methods ← readSection
    let classes ← readSection
    let data ← readSection
    return { version, checksum, fileSize, headerSize, strings, types, protos, fields, methods,
             classes, data }

/-- Checks that a table of entries of `width` bytes lies between the header and the end of the
data; an empty table may be anywhere. -/
def checkSection (size : Nat) (table : String × Section × Nat) : Outcome Unit :=
  let (name, place, width) := table
  let start := place.offset.toNat
  let stop := start + place.size.toNat * width
  if place.size ≠ 0 ∧ (start < headerBytes ∨ stop > size) then
    Outcome.failWith .sectionRange
      (name ++ " [0x" ++ Text.hex start 1 ++ ", 0x" ++ Text.hex stop 1 ++ ")")
  else .ok ()

/-- The first bytes of a file. -/
def front (data : ByteArray) : Text := ⟨(data.extract 0 8).data.toList⟩

/-- What is odd about a file: the sum of its bytes is not the one in its header. -/
def sumDiagnostics (data : ByteArray) (header : Header) : List Diagnostic :=
  if adler32 data 12 = header.checksum then []
  else [{ offset := 8, kind := "checksum"
          message := "adler32 0x" ++ Text.hex (adler32 data 12).toNat 8 ++ ", header says 0x" ++
            Text.hex header.checksum.toNat 8 }]

/-- The file with its tables, whose places are checked first. -/
def File.withTables (bare : File) : Outcome File := do
  let header := bare.header
  [("string_ids", header.strings, 4), ("type_ids", header.types, 4),
    ("proto_ids", header.protos, 12), ("field_ids", header.fields, 8),
    ("method_ids", header.methods, 8), ("class_defs", header.classes, 32)].forM
    (checkSection bare.data.size)
  let f ← bare.withStrings
  let f ← f.withTypes
  f.withProtos

/-- Opens a file: checks the header and the places of the tables, then decodes the tables. -/
def File.open (data : ByteArray) (options : ReadOptions) : Outcome File := do
  let front := front data
  let version := (front.drop 4).take 3
  if data.size < headerBytes then
    Outcome.failWith .fileTruncated (Text.ofNat data.size ++ " bytes")
  else if !front.startsWith "dex\n" || front.bytes[7]? != some 0 then Outcome.fail .dexMagic
  else if !supportedVersions.contains version then Outcome.failWith .dexVersion version.quote
  else
    let header ← (readHeader version data.size (Cursor.ofOffset data 8)).1
    let data := data.extract 0 header.fileSize.toNat
    File.withTables { header, options, diagnostics := sumDiagnostics data header, data }

end DexLift.Dex
