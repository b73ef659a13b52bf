import DexLift.Decimal
import DexLift.Dex.Mutf8
import DexLift.Jvm.Bytes
import DexLift.Text.Quoted
import Std.Data.HashMap

/-!
# Constant pools

A class file refers to names, types, members and numbers by their index in a
table. Equal entries are kept once. Index 0 is not used, and neither is the
index after a long or a double. A table that is full, or a string that is too
long, leaves a failure behind and gives index 0.
-/

namespace DexLift.Jvm

/-- An entry of the table; numbers refer to other entries. -/
inductive Constant where
  /-- No entry: index 0, or the second half of a wide one. -/
  | unused
  | utf8 (text : Text)
  | integer (bits : UInt32)
  | float (bits : UInt32)
  | long (bits : UInt64)
  | double (bits : UInt64)
  | class (name : UInt16)
  | string (text : UInt16)
  | fieldRef (owner nameAndType : UInt16)
  | methodRef (owner nameAndType : UInt16)
  | interfaceMethodRef (owner nameAndType : UInt16)
  | nameAndType (name type : UInt16)
  | methodHandle (kind : UInt8) (ref : UInt16)
  | methodType (type : UInt16)
  | invokeDynamic (bootstrap nameAndType : UInt16)
deriving DecidableEq, Hashable, Inhabited

namespace Constant

/-- The byte that marks the entry in a file. -/
def tag : Constant → UInt8
  | unused => 0 | utf8 _ => 1 | integer _ => 3 | float _ => 4 | long _ => 5 | double _ => 6
  | .class _ => 7 | string _ => 8 | fieldRef .. => 9 | methodRef .. => 10
  | interfaceMethodRef .. => 11 | nameAndType .. => 12 | methodHandle .. => 15 | methodType _ => 16
  | invokeDynamic .. => 18

/-- Whether the entry takes two indices. -/
def isWide : Constant → Bool
  | long _ | double _ => true
  | _ => false

/-- Text, number and the two references of an entry; what an entry does not have is empty or 0. -/
def parts : Constant → Text × UInt64 × UInt16 × UInt16
  | unused => (∅, 0, 0, 0)
  | utf8 text => (text, 0, 0, 0)
  | integer bits | float bits => (∅, bits.toUInt64, 0, 0)
  | long bits | double bits => (∅, bits, 0, 0)
  | .class a | string a | methodType a => (∅, 0, a, 0)
  | fieldRef a b | methodRef a b | interfaceMethodRef a b | nameAndType a b | invokeDynamic a b =>
    (∅, 0, a, b)
  | methodHandle kind ref => (∅, 0, kind.toUInt16, ref)

/-- What follows the tag in a file. -/
def body : Constant → List UInt8
  | unused => []
  | utf8 text =>
    let encoded := (Mutf8.encode text).bytes
    u2OfNat encoded.length ++ encoded
  | integer bits | float bits => u4 bits
  | long bits | double bits => u8 bits
  | .class a | string a | methodType a => u2 a
  | fieldRef a b | methodRef a b | interfaceMethodRef a b | nameAndType a b | invokeDynamic a b =>
    u2 a ++ u2 b
  | methodHandle kind ref => kind :: u2 ref

/-- The entry as it stands in a file; the second half of a wide entry takes no room. -/
def encoded (c : Constant) : List UInt8 :=
  match c with
  | unused => []
  | _ => c.tag :: c.body

end Constant

structure Pool where
  entries : Array Constant := #[.unused]
  /-- The index of every entry. -/
  index : Std.HashMap Constant UInt16 := {}
  /-- The first failure to add an entry. -/
  failure : Option Failure := none

/-- A step that may add entries. -/
abbrev Intern := StateM Pool

namespace Pool

/-- The most entries a pool can have, index 0 included. -/
def capacity : Nat := 65536

/-- The number of indices in use, index 0 included. -/
def count (p : Pool) : Nat := p.entries.size

def entry (p : Pool) (i : UInt16) : Constant := p.entries.getD i.toNat .unused

/-- Notes a failure unless there was one before. -/
def fail (p : Pool) (cause : Cause) (detail : Text) : Pool :=
  { p with failure := p.failure <|> some ⟨[.detail detail], cause⟩ }

/-- Appends an entry whether or not an equal one is there. The first of equal entries is found. -/
def push (p : Pool) (c : Constant) : Pool :=
  let next := UInt16.ofNat p.entries.size
  { p with
    entries := if c.isWide then (p.entries.push c).push .unused else p.entries.push c
    index := p.index.insertIfNew c next }

def intern (c : Constant) : Intern UInt16 :=
  modifyGet fun p =>
    match p.index[c]? with
    | some i => (i, p)
    | none =>
      let size := p.entries.size
      if size + (if c.isWide then 2 else 1) > capacity then
        (0, p.fail .poolOverflow (Text.ofNat size ++ " entries"))
      else (UInt16.ofNat size, p.push c)

def isTooLong (text : Text) : Bool :=
  text.length > 65535 / 3 && (Mutf8.encode text).length > 65535

def utf8 (text : Text) : Intern UInt16 := do
  if isTooLong text then
    modify fun p => p.fail .stringTooLong (Text.ofNat text.length ++ " bytes")
    return 0
  else intern (.utf8 text)

/-- The index of a class, by internal name or array descriptor. -/
def class_ (name : Text) : Intern UInt16 := do intern (.class (← utf8 name))

def string (text : Text) : Intern UInt16 := do intern (.string (← utf8 text))

def integer (n : Int32) : Intern UInt16 := intern (.integer n.toUInt32)

def float (bits : UInt32) : Intern UInt16 := intern (.float bits)

def long (bits : UInt64) : Intern UInt16 := intern (.long bits)

def double (bits : UInt64) : Intern UInt16 := intern (.double bits)

def nameAndType (name type : Text) : Intern UInt16 := do
  let name ← utf8 name
  intern (.nameAndType name (← utf8 type))

def fieldRef (owner name type : Text) : Intern UInt16 := do
  let owner ← class_ owner
  intern (.fieldRef owner (← nameAndType name type))

def methodRef (owner name type : Text) : Intern UInt16 := do
  let owner ← class_ owner
  intern (.methodRef owner (← nameAndType name type))

def interfaceMethodRef (owner name type : Text) : Intern UInt16 := do
  let owner ← class_ owner
  intern (.interfaceMethodRef owner (← nameAndType name type))

/-- The text at an index; empty when there is none. -/
def text (p : Pool) (i : UInt16) : Text :=
  match p.entry i with
  | .utf8 text => text
  | _ => ∅

/-- The name of the class at an index; empty when there is none. -/
def className (p : Pool) (i : UInt16) : Text :=
  match p.entry i with
  | .class name => p.text name
  | _ => ∅

/-- The name and type a member reference or a pair of them leads to, separated by a colon. -/
def nameAndTypeText (p : Pool) (i : UInt16) : Text :=
  let (_, _, name, type) := (p.entry i).parts
  p.text name ++ ":" ++ p.text type

/-- An entry as operands of instructions are shown. -/
def describe (p : Pool) (i : UInt16) : Text :=
  match p.entry i with
  | .utf8 text => text
  | .integer bits => "int " ++ Text.ofInt bits.toInt32.toInt
  | .float bits => "float " ++ Decimal.general .single bits.toNat
  | .long bits => "long " ++ Text.ofInt bits.toInt64.toInt
  | .double bits => "double " ++ Decimal.general .double bits.toNat
  | .class name => "class " ++ p.text name
  | .string text => "String " ++ (p.text text).quote
  | .fieldRef owner member | .methodRef owner member | .interfaceMethodRef owner member =>
    p.className owner ++ "." ++ p.nameAndTypeText member
  | .nameAndType name type => p.text name ++ ":" ++ p.text type
  | _ => "#" ++ Text.ofNat i.toNat

def encoded (p : Pool) : List UInt8 :=
  u2OfNat p.entries.size ++ p.entries.toList.tail.flatMap Constant.encoded

end Pool

end DexLift.Jvm
