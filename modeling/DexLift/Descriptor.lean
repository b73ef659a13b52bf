import DexLift.Text.Basic

/-!
# Descriptors and references

A descriptor spells a type: one letter for a primitive, `L…;` for a class, a
bracket in front for an array. Class files name classes without the `L` and the
semicolon. Members are referred to by owner, name and type.
-/

namespace DexLift

/-- The root of every class hierarchy. -/
def objectDesc : Text := "Ljava/lang/Object;"

/-- The class all exceptions belong to. -/
def throwableDesc : Text := "Ljava/lang/Throwable;"

namespace Descriptor

/-- The byte `L`, which opens a class descriptor. -/
def letterL : UInt8 := 76

def bracket : UInt8 := 91

def semicolon : UInt8 := 59

/-- Registers or local slots a value takes: two for long and double, none for void, else one. -/
def slots (desc : Text) : Nat :=
  if desc = "J" ∨ desc = "D" then 2 else if desc = "V" then 0 else 1

/-- Whether the text opens like a class descriptor and closes like one. -/
def isClassShape (desc : Text) : Bool :=
  desc.first? == some letterL && desc.bytes.getLast? == some semicolon

def inner (desc : Text) : Text := ⟨desc.bytes.tail.dropLast⟩

/-- The internal name of a class descriptor of at least two bytes; anything else stays as it is. -/
def internalName (desc : Text) : Text :=
  if desc.length ≥ 2 && isClassShape desc then inner desc else desc

/-- The descriptor of an internal name; an array descriptor stays as it is. -/
def ofInternal (name : Text) : Text :=
  if name.first? = some bracket then name else "L" ++ name ++ ";"

/-- The name a class entry uses: like the internal name, but `L;` stays as it is. -/
def className (desc : Text) : Text :=
  if desc.length > 2 && isClassShape desc then inner desc else desc

/-- Whether a descriptor denotes a class or an array. -/
def isReference (desc : Text) : Bool :=
  desc.first? == some letterL || desc.first? == some bracket

def isArray (desc : Text) : Bool := desc.first? == some bracket

end Descriptor

structure FieldRef where
  owner : Text
  name : Text
  type : Text
deriving DecidableEq, Inhabited, Repr

def FieldRef.text (f : FieldRef) : Text := f.owner ++ "->" ++ f.name ++ ":" ++ f.type

/-- The parameter types and the return type of a method. -/
structure Proto where
  params : List Text
  result : Text
deriving DecidableEq, Inhabited, Repr

/-- The method descriptor: parameters in parentheses, then the return type. -/
def Proto.desc (p : Proto) : Text := "(" ++ Text.concat p.params ++ ")" ++ p.result

/-- Registers the parameters take, the receiver not counted. -/
def Proto.paramSlots (p : Proto) : Nat := (p.params.map Descriptor.slots).foldr (· + ·) 0

structure MethodRef where
  owner : Text
  name : Text
  proto : Proto
deriving DecidableEq, Inhabited, Repr

def MethodRef.desc (m : MethodRef) : Text := m.proto.desc

def MethodRef.text (m : MethodRef) : Text := m.owner ++ "->" ++ m.name ++ m.desc

/-- Access flags. A class file has sixteen of them; the last two occur in DEX files only. -/
structure Access where
  bits : UInt32
deriving DecidableEq, Inhabited, Repr

namespace Access

def has (access : Access) (flag : UInt32) : Bool := access.bits &&& flag != 0

/-- Member or class of this flag set has no receiver. -/
def isStatic (access : Access) : Bool := access.has 0x8

def isInterface (access : Access) : Bool := access.has 0x200

/-- The flags a class declaration shows, in the order it shows them. -/
def classFlags : List (UInt32 × String) :=
  [(0x1, "public"), (0x2, "private"), (0x4, "protected"), (0x8, "static"), (0x10, "final"),
   (0x200, "interface"), (0x400, "abstract"), (0x1000, "synthetic"), (0x2000, "annotation"),
   (0x4000, "enum")]

def fieldFlags : List (UInt32 × String) :=
  [(0x1, "public"), (0x2, "private"), (0x4, "protected"), (0x8, "static"), (0x10, "final"),
   (0x40, "volatile"), (0x80, "transient"), (0x1000, "synthetic"), (0x4000, "enum")]

def methodFlags : List (UInt32 × String) :=
  [(0x1, "public"), (0x2, "private"), (0x4, "protected"), (0x8, "static"), (0x10, "final"),
   (0x20, "synchronized"), (0x20000, "synchronized"), (0x40, "bridge"), (0x80, "varargs"),
   (0x100, "native"), (0x400, "abstract"), (0x800, "strictfp"), (0x1000, "synthetic"),
   (0x10000, "constructor")]

/-- The words of the flags that are set, separated by blanks. -/
def words (access : Access) (flags : List (UInt32 × String)) : Text :=
  Text.join " " ((flags.filter fun flag => access.has flag.1).map fun flag => ↑flag.2)

/-- The words in front of a declaration, with a blank after them when there are any. -/
def lead (access : Access) (flags : List (UInt32 × String)) : Text :=
  let shown := access.words flags
  if shown.isEmpty then shown else shown ++ " "

end Access

end DexLift
