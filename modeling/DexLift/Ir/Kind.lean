import DexLift.Descriptor

/-!
# Kinds and types of values

A kind is the set of storage classes a value may still take: int, float, long,
double or reference. One element is a resolved kind, the empty set a
contradiction. A type adds a descriptor: which class or array a reference is,
or which narrow integer an int is. A reference without descriptor is null.
-/

namespace DexLift.Ir

/-- A set of storage classes, one bit each. -/
structure Kind where
  bits : UInt8
deriving DecidableEq, Inhabited, Repr

namespace Kind

/-- Integers of up to 32 bits and truth values. -/
def int : Kind := ⟨1⟩

/-- Floating-point values of 32 bits. -/
def float : Kind := ⟨2⟩

def long : Kind := ⟨4⟩

/-- Floating-point values of 64 bits. -/
def double : Kind := ⟨8⟩

def ref : Kind := ⟨16⟩

def bottom : Kind := ⟨0⟩

def top : Kind := ⟨31⟩

/-- The two numeric classes of 32 bits. -/
def narrow : Kind := ⟨3⟩

/-- The two numeric classes of 64 bits. -/
def wide : Kind := ⟨12⟩

/-- The classes in both sets. -/
def inter (k l : Kind) : Kind := ⟨k.bits &&& l.bits⟩

/-- The classes in either set. -/
def union (k l : Kind) : Kind := ⟨k.bits ||| l.bits⟩

instance : AndOp Kind := ⟨inter⟩
instance : OrOp Kind := ⟨union⟩

/-- Whether two sets share a class. -/
def meets (k l : Kind) : Bool := k.bits &&& l.bits != 0

/-- Whether exactly one class is left. -/
def isConcrete (k : Kind) : Bool := k.bits != 0 && k.bits &&& (k.bits - 1) == 0

/-- Whether the value takes two slots. -/
def isWide (k : Kind) : Bool := k == long || k == double

/-- The number of local slots a value takes. -/
def slots (k : Kind) : Nat := if k.isWide then 2 else 1

/-- The letters of the classes in the set. -/
def text (k : Kind) : Text :=
  if k = bottom then "⊥"
  else if k = top then "⊤"
  else
    Text.join "|" (([(int, "I"), (float, "F"), (long, "J"), (double, "D"), (ref, "L")].filter
      fun part => k.meets part.1).map fun part => ↑part.2)

/-- The kind of a descriptor; what opens like no descriptor may be anything. -/
def ofDesc (desc : Text) : Kind :=
  match desc.first? with
  | none => top
  | some b =>
    if b ∈ [90, 66, 67, 83, 73] then int
    else if b = 70 then float
    else if b = 74 then long
    else if b = 68 then double
    else if b = 76 ∨ b = 91 then ref
    else top

end Kind

/-- A kind and, for references and narrow integers, a descriptor. -/
structure Ty where
  kind : Kind
  desc : Text := ∅
deriving DecidableEq, Inhabited, Repr

namespace Ty

def int : Ty := { kind := .int }

def null : Ty := { kind := .ref }

def object : Ty := { kind := .ref, desc := objectDesc }

def string : Ty := { kind := .ref, desc := "Ljava/lang/String;" }

def class_ : Ty := { kind := .ref, desc := "Ljava/lang/Class;" }

/-- A type about which nothing is known. -/
def top : Ty := { kind := .top }

/-- A reference to a class or array. -/
def refTo (desc : Text) : Ty := { kind := .ref, desc }

/-- The type a descriptor spells. A plain int keeps no descriptor, a narrower one does. -/
def ofDesc (desc : Text) : Ty :=
  let kind := Kind.ofDesc desc
  if kind = .ref ∨ (kind = .int ∧ desc ≠ "I") then { kind, desc } else { kind }

def isNull (t : Ty) : Bool := t.kind == .ref && t.desc.isEmpty

def isConcrete (t : Ty) : Bool := t.kind.isConcrete

/-- The descriptor of a resolved type; null counts as an object. -/
def descriptor (t : Ty) : Text :=
  if t.kind = .int then (if t.desc.isEmpty then "I" else t.desc)
  else if t.kind = .float then "F"
  else if t.kind = .long then "J"
  else if t.kind = .double then "D"
  else if t.kind = .ref then (if t.desc.isEmpty then objectDesc else t.desc)
  else "?"

def text (t : Ty) : Text :=
  if t.kind = .ref then (if t.desc.isEmpty then "null" else t.desc)
  else if t.isConcrete && !t.desc.isEmpty then t.desc
  else t.kind.text

end Ty

/-- The element descriptor of an array descriptor; empty for anything else. -/
def elementDesc (desc : Text) : Text := if Descriptor.isArray desc then desc.tail else ∅

end DexLift.Ir
