import DexLift.Decimal
import DexLift.Descriptor
import DexLift.Text.Quoted

/-!
# Constant values and annotations

Initial values of static fields and annotation arguments. Numbers keep the bits
they were encoded with, extended to 64: integers by their sign, characters by
zeros, floating-point values by zeros on the right.
-/

namespace DexLift.Dex

/-- The kinds of value that are nothing but bits. -/
inductive NumberKind where
  | byte | short | char | int | long | float | double | methodType | methodHandle | boolean
deriving DecidableEq, Repr

def NumberKind.tag : NumberKind → Nat
  | byte => 0x00 | short => 0x02 | char => 0x03 | int => 0x04 | long => 0x06
  | float => 0x10 | double => 0x11 | methodType => 0x15 | methodHandle => 0x16 | boolean => 0x1f

inductive Value where
  | number (kind : NumberKind) (bits : UInt64)
  | string (text : Text)
  | type (desc : Text)
  | field (ref : FieldRef)
  | method (ref : MethodRef)
  | enum (ref : FieldRef)
  | array (elements : List Value)
  | nested (type : Text) (elements : List (Text × Value))
  | null
deriving Inhabited

/-- Who sees an annotation: the build only, the running program, or the system. -/
structure Visibility where
  code : UInt8
deriving DecidableEq

/-- Kept for tools, not for the running program. -/
def Visibility.build : Visibility := ⟨0⟩

/-- Visible to the running program. -/
def Visibility.runtime : Visibility := ⟨1⟩

def Visibility.system : Visibility := ⟨2⟩

/-- An annotation with its named arguments. -/
structure Annotation where
  visibility : Visibility
  type : Text
  elements : List (Text × Value)

def Annotation.element? (a : Annotation) (name : Text) : Option Value :=
  (a.elements.find? fun e => e.1 == name).map Prod.snd

namespace Value

def tag : Value → Nat
  | number kind _ => kind.tag
  | string _ => 0x17 | type _ => 0x18 | field _ => 0x19 | method _ => 0x1a | enum _ => 0x1b
  | array _ => 0x1c | nested _ _ => 0x1d | null => 0x1e

/-- The bits of a number; zero for everything else. -/
def bits : Value → UInt64
  | number _ bits => bits
  | _ => 0

/-- The elements of an array; none for everything else. -/
def elements : Value → List Value
  | array elements => elements
  | _ => []

def numberText (kind : NumberKind) (bits : UInt64) : Text :=
  match kind with
  | .byte | .short | .int | .long => Text.ofInt bits.toInt64.toInt
  | .char => Text.quoteCode bits.toUInt32.toNat
  | .float => Decimal.general .single bits.toUInt32.toNat
  | .double => Decimal.general .double bits.toNat
  | .boolean => if bits = 0 then "false" else "true"
  | .methodType | .methodHandle => "<0x" ++ Text.hex kind.tag 1 ++ ">"

mutual

def text : Value → Text
  | number kind bits => numberText kind bits
  | string text => text.quote
  | type desc => desc ++ ".class"
  | field ref => ref.text
  | enum ref => ref.text
  | method ref => ref.text
  | array elements => "\x7b" ++ Text.join ", " (texts elements) ++ "\x7d"
  | nested _ _ => "<0x1d>"
  | null => "null"

def texts : List Value → List Text
  | [] => []
  | head :: rest => text head :: texts rest

end

end Value

end DexLift.Dex
