import DexLift.Archive.Inflate
import DexLift.Failure

/-!
# Archives

An archive ends with a record that says where its directory is. The directory
lists the entries; each entry has a header in front of its data. Records with
wide numbers take over when the narrow ones are full. The archive may have been
appended to other data, which shifts all positions.
-/

namespace DexLift

/-!
## Checksums of archives

The cyclic redundancy check over the polynomial `0xEDB88320`, least significant
bit first.
-/

namespace Archive

def crcBits : (n : Nat) → UInt32 → UInt32
  | 0, c => c
  | n + 1, c => crcBits n (if c % 2 = 1 then (c >>> 1) ^^^ 0xedb88320 else c >>> 1)

def crcTable : Array UInt32 := (Array.range 256).map fun n => crcBits 8 (UInt32.ofNat n)

/-- The remainder after one more byte. -/
def crcByte (c : UInt32) (b : UInt8) : UInt32 :=
  crcTable.getD (c.toUInt8 ^^^ b).toNat 0 ^^^ (c >>> 8)

def crc32 (data : ByteArray) : UInt32 := data.foldl crcByte 0xffffffff ^^^ 0xffffffff

/-!
## Archives

An archive ends with a record that says where its directory is. The directory
lists the entries; each entry has a header in front of its data. Records with
wide numbers take over when the narrow ones are full. The archive may have been
appended to other data, which shifts all positions.
-/

/-- Why an archive or one of its entries cannot be read. -/
inductive Fault where
  | format
  | algorithm
  | checksum
  | endOfData
  | truncated
  | negativeOffset
  | inflate (fault : InflateFault)
deriving DecidableEq

/-- The wording of a fault. `source` names the file that is read, if it is one. -/
def Fault.text (source : Option Text) : Fault → Text
  | format => "zip: not a valid zip file"
  | algorithm => "zip: unsupported compression algorithm"
  | checksum => "zip: checksum error"
  | endOfData => "EOF"
  | truncated => "unexpected EOF"
  | negativeOffset =>
    match source with
    | some path => "readat " ++ path ++ ": negative offset"
    | none => "bytes.Reader.ReadAt: negative offset"
  | inflate fault => fault.text

/-- A byte of the data; zero behind its end. -/
def byteAt (data : ByteArray) (place : Nat) : UInt8 :=
  if h : place < data.size then data[place] else 0

/-- The number that bytes spell, the lowest byte first. -/
def littleEndian (data : ByteArray) (offset : Nat) : (count : Nat) → Nat
  | 0 => 0
  | count + 1 => (byteAt data offset).toNat + 256 * littleEndian data (offset + 1) count

def piece (data : ByteArray) (offset : Int) (size : Nat) : Except Fault ByteArray :=
  if offset < 0 then .error .negativeOffset
  else if offset.toNat + size > data.size then .error .endOfData
  else .ok (data.extract offset.toNat (offset.toNat + size))

/-- Reads a piece of a stream that ends with the data. An end before the first byte is told apart
from one in the middle. -/
def full (data : ByteArray) (offset size : Nat) : Except Fault ByteArray :=
  if offset + size ≤ data.size then .ok (data.extract offset (offset + size))
  else if size > 0 ∧ offset ≥ data.size then .error .endOfData
  else .error .truncated

/-- A 32-bit number that says that the real number is elsewhere. -/
def fullWord : Nat := 0xffffffff

/-- A position or size as a signed number of 64 bits. -/
def signed64 (n : Int) : Int := Int.bmod n 0x10000000000000000

structure Extent where
  packedSize : Nat
  size : Nat
  /-- Where the header of the entry is. -/
  offset : Int

/-- A number of an extra field: the wide one at a place of the field if it is wanted, else the one
that is known; and the place behind it. -/
def wideNumber (field : ByteArray) (wanted : Bool) (known : Int) (place : Nat) :
    Except Fault (Int × Nat) :=
  if !wanted then .ok (known, place)
  else if place + 8 > field.size then .error .format
  else .ok (littleEndian field place 8, place + 8)

/-- Applies an extra field with wide numbers: those among size, packed size and offset whose narrow
number is full, in this order. A wide offset that was found stays. -/
def Extent.widen (narrow known : Extent) (field : ByteArray) : Except Fault Extent := do
  let (size, place) ← wideNumber field (narrow.size == fullWord) known.size 0
  let (packed, place) ← wideNumber field (narrow.packedSize == fullWord) known.packedSize place
  let (offset, _) ← wideNumber field (known.offset == fullWord) known.offset place
  return ⟨packed.toNat, size.toNat, signed64 offset⟩

/-- Applies the extra fields of an entry, at most `fuel` of them; those that do not fit end the
list. -/
def Extent.widenAll (narrow : Extent) :
    (fuel : Nat) → (extra : ByteArray) → (known : Extent) → Except Fault Extent
  | 0, _, known => .ok known
  | fuel + 1, extra, known =>
    let tag := littleEndian extra 0 2
    let size := littleEndian extra 2 2
    if extra.size < 4 ∨ extra.size < 4 + size then .ok known
    else do
      let rest := extra.extract (4 + size) extra.size
      if tag = 1 then
        narrow.widenAll fuel rest (← narrow.widen known (extra.extract 4 (4 + size)))
      else narrow.widenAll fuel rest known

structure Entry extends Extent where
  name : Text
  flags : Nat
  method : Nat
  crc : UInt32

/-- The entry of the directory at a position, and the position behind it. -/
def entryAt (data : ByteArray) (place : Nat) : Except Fault (Entry × Nat) := do
  let head ← full data place 46
  if littleEndian head 0 4 ≠ 0x02014b50 then throw .format
  let narrow : Extent :=
    ⟨littleEndian head 20 4, littleEndian head 24 4, littleEndian head 42 4⟩
  let nameSize := littleEndian head 28 2
  let extraSize := littleEndian head 30 2
  let commentSize := littleEndian head 32 2
  let rest ← full data (place + 46) (nameSize + extraSize + commentSize)
  let extra := rest.extract nameSize (nameSize + extraSize)
  let entry : Entry := {
    (← narrow.widenAll extra.size extra narrow) with
    name := Text.ofByteArray (rest.extract 0 nameSize)
    flags := littleEndian head 8 2
    method := littleEndian head 10 2
    crc := UInt32.ofNat (littleEndian head 16 4) }
  return (entry, place + 46 + nameSize + extraSize + commentSize)

/-- The record at the end: how many entries there are and where the directory is. -/
structure Ending where
  records : Nat
  size : Nat
  offset : Nat

/-- The last position from which a record at the end can begin in a block, going down. Its comment
must lie inside the block. -/
def findEnding (data : ByteArray) (first : Nat) : (count : Nat) → Option Nat
  | 0 => none
  | count + 1 =>
    let place := first + count
    if littleEndian data place 4 = 0x06054b50 then
      if place + 22 + littleEndian data (place + 20) 2 > data.size then none else some place
    else findEnding data first count

/-- The position of the record at the end: in the last kilobyte, or in the last 65. -/
def endingPlace (data : ByteArray) : Except Fault Nat :=
  let inLast (size : Nat) : Option Nat :=
    let size := min size data.size
    findEnding data (data.size - size) (size + 1 - 22)
  match inLast 1024 <|> inLast (65 * 1024) with
  | some place => .ok place
  | none => .error .format

/-- The position of the record with wide numbers, given in front of the narrow one. -/
def widePlace (data : ByteArray) (place : Nat) : Option Int :=
  if place < 20 then none
  else
    let at_ := place - 20
    if littleEndian data at_ 4 = 0x07064b50 ∧ littleEndian data (at_ + 4) 4 = 0 ∧
        littleEndian data (at_ + 16) 4 = 1 then
      some (signed64 (littleEndian data (at_ + 8) 8))
    else none

def wideEnding (data : ByteArray) (place : Int) : Except Fault Ending := do
  let record ← piece data place 56
  if littleEndian record 0 4 ≠ 0x06064b50 then throw .format
  return {
    records := littleEndian record 32 8
    size := littleEndian record 40 8
    offset := littleEndian record 48 8 }

/-- The record at the end, and the shift of all positions. -/
def ending (data : ByteArray) : Except Fault (Ending × Int) := do
  let place ← endingPlace data
  let narrow : Ending := {
    records := littleEndian data (place + 10) 2
    size := littleEndian data (place + 12) 4
    offset := littleEndian data (place + 16) 4 }
  let isFull := narrow.records == 0xffff || narrow.size == fullWord || narrow.offset == fullWord
  let wide := if isFull then (widePlace data place).filter (· ≥ 0) else none
  let (place, found) ← match wide with
    | some at_ => do pure (at_, ← wideEnding data at_)
    | none => pure ((place : Int), narrow)
  if found.size ≥ 0x8000000000000000 ∨ found.offset ≥ 0x8000000000000000 then throw .format
  let base : Int := place - found.size - found.offset
  let start := base + found.offset
  if start < 0 ∨ start ≥ data.size then throw .format
  if base > 0 then
    match entryAt data found.offset with
    | .ok _ => return (found, 0)
    | .error _ => return (found, base)
  return (found, base)

/-- The entries from a position on, and the fault that ends them. -/
def entriesFrom (data : ByteArray) (base : Int) :
    (fuel place : Nat) → List Entry × Fault
  | 0, _ => ([], .format)
  | fuel + 1, place =>
    match entryAt data place with
    | .error fault => ([], fault)
    | .ok (entry, next) =>
      let (rest, fault) := entriesFrom data base fuel next
      ({ entry with offset := signed64 (entry.offset + base) } :: rest, fault)

/-- The entries of an archive, in the order of the directory. Only the low sixteen bits of their
number are checked. -/
def entries (data : ByteArray) : Except Fault (List Entry) := do
  let (found, base) ← ending data
  let (all, fault) := entriesFrom data base data.size (base + found.offset).toNat
  if fault ≠ .format ∧ fault ≠ .truncated then throw fault
  if all.length % 65536 ≠ found.records % 65536 then throw fault
  return all

/-- What is wrong with the record that follows the data of an entry, when its flags ask for one. -/
def descriptorFault (data : ByteArray) (start : Int) (crc : UInt32) : Option Fault :=
  let place := start.toNat
  let stop := min data.size (place + 16)
  let marked := littleEndian data place 4 = 0x08074b50
  if start < 0 then some .negativeOffset
  else if place + 4 > stop then some .truncated
  else
    let at_ := if marked then place + 4 else place
    if at_ + 12 > stop then some .truncated
    else if UInt32.ofNat (littleEndian data at_ 4) ≠ crc then some .checksum
    else none

namespace Entry

def bodyPlace (data : ByteArray) (e : Entry) : Except Fault Nat := do
  let head ← piece data e.offset 30
  if littleEndian head 0 4 ≠ 0x04034b50 then throw .format
  return e.offset.toNat + 30 + littleEndian head 26 2 + littleEndian head 28 2

def isDirectory (e : Entry) : Bool := e.name.bytes.getLast? == some 47

/-- Opens an entry: where its data begins. Directories have none. -/
def «open» (data : ByteArray) (e : Entry) : Except Fault Nat := do
  let place ← e.bodyPlace data
  if !e.isDirectory && e.method ≠ 0 && e.method ≠ 8 then throw .algorithm
  return place

/-- The content of an entry whose data begins at a position. Data of a negative size reaches to the
end of the archive. -/
def contentAt (data : ByteArray) (e : Entry) (place : Nat) : Except Fault ByteArray := do
  if e.isDirectory then
    if e.size ≠ 0 then throw .format
    return ByteArray.empty
  let packedSize := signed64 e.packedSize
  let stop := if packedSize < 0 then data.size else min data.size (place + packedSize.toNat)
  let packed := data.extract place stop
  let (content, fault) := if e.method = 8 then inflate packed else (packed, none)
  if content.size > e.size then throw .format
  if let some fault := fault then throw (.inflate fault)
  if content.size < e.size then throw .truncated
  if e.flags.testBit 3 then
    if let some fault := descriptorFault data (signed64 (place + packedSize)) e.crc then throw fault
    if crc32 content ≠ e.crc then throw .checksum
  else if e.crc ≠ 0 ∧ crc32 content ≠ e.crc then throw .checksum
  return content

def read (data : ByteArray) (e : Entry) : Except Fault ByteArray := do
  e.contentAt data (← e.open data)

end Entry

def unpack (data : ByteArray) : Except Fault (List (Text × ByteArray)) := do
  (← entries data).mapM fun e => return (e.name, ← e.read data)

/-!
## Finding the classes in an input

An input is the file of classes itself or an archive that contains it.
-/

def classesName : Text := "classes.dex"

def orFail {α : Type} (note : Text) (outcome : Except Fault α) : Outcome α :=
  match outcome with
  | .ok value => .ok value
  | .error fault => Outcome.failWith (.other (fault.text none)) note

/-- The file of classes in an input; of several entries the first counts. -/
def extract (data : ByteArray) : Outcome ByteArray := do
  let start (text : String) : Bool := (Text.ofByteArray (data.extract 0 3)).startsWith text
  if data.size < 3 then
    Outcome.failWith .inputTooSmall (Text.ofNat data.size ++ " bytes")
  else if start "dex" then return data
  else if start "PK" then
    let all ← orFail "dex: open zip" (entries data)
    match all.find? fun e => e.name == classesName with
    | none => Outcome.fail .noClassesDex
    | some e =>
      let place ← orFail ("dex: open " ++ e.name) (e.open data)
      orFail ("dex: read " ++ e.name) (e.contentAt data place)
  else Outcome.fail .notDexOrZip

/-!
## Writing archives

Entries are written one after the other, then the directory and the record at
the end. Data is kept in stored blocks, which any reader of compressed data
takes. All entries bear the first day a date in an archive can have.
-/

/-- A number as bytes, the lowest first. -/
def lowFirst : (count : Nat) → Nat → List UInt8
  | 0, _ => []
  | count + 1, n => UInt8.ofNat n :: lowFirst count (n / 256)

/-- Bytes as blocks that store them; the last of at least one block is marked. At most `fuel` full
blocks are written. -/
def storedBlocks : (fuel : Nat) → List UInt8 → List UInt8
  | 0, _ => []
  | fuel + 1, data =>
    let head := data.take 65535
    let size := head.length
    let mark : UInt8 := if data.length ≤ 65535 then 1 else 0
    let block := mark :: lowFirst 2 size ++ lowFirst 2 (65535 - size) ++ head
    if data.length ≤ 65535 then block else block ++ storedBlocks fuel (data.drop 65535)

/-- Bytes as a compressed stream. -/
def store (data : List UInt8) : List UInt8 := storedBlocks (data.length / 65535 + 1) data

/-- The part that the header of an entry and its line in the directory share. -/
def entryHead (name : Text) (data : List UInt8) : List UInt8 :=
  -- version, flags for names in UTF-8, method, time and date
  let flags := if name.bytes.all (· < 128) then 0 else 0x800
  lowFirst 2 20 ++ lowFirst 2 flags ++ lowFirst 2 8 ++ lowFirst 2 0 ++ lowFirst 2 0x21 ++
    lowFirst 4 (crc32 ⟨data.toArray⟩).toNat ++ lowFirst 4 (store data).length ++
    lowFirst 4 data.length ++ lowFirst 2 name.length ++ lowFirst 2 0

def localEntry (name : Text) (data : List UInt8) : List UInt8 :=
  lowFirst 4 0x04034b50 ++ entryHead name data ++ name.bytes ++ store data

def directoryEntry (name : Text) (data : List UInt8) (offset : Nat) : List UInt8 :=
  lowFirst 4 0x02014b50 ++ lowFirst 2 20 ++ entryHead name data ++ lowFirst 10 0 ++
    lowFirst 4 offset ++ name.bytes

def directory : (offset : Nat) → List (Text × List UInt8) → List UInt8
  | _, [] => []
  | offset, (name, data) :: rest =>
    directoryEntry name data offset ++ directory (offset + (localEntry name data).length) rest

def encode (entries : List (Text × List UInt8)) : List UInt8 :=
  let body := entries.flatMap fun (name, data) => localEntry name data
  let listed := directory 0 entries
  body ++ listed ++ lowFirst 4 0x06054b50 ++ lowFirst 4 0 ++ lowFirst 2 entries.length ++
    lowFirst 2 entries.length ++ lowFirst 4 listed.length ++ lowFirst 4 body.length ++ lowFirst 2 0

end Archive

end DexLift
