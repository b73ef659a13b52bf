/-!
# Byte strings

Names, descriptors and string constants are kept as the bytes they were read as.
Most of them are UTF-8, but a DEX string table may hold surrogates and other
bytes that no `String` can carry, so the type makes no promise about encoding.
The order is the order of the bytes, which is also the order of code points.
-/

namespace DexLift

/-- A string of bytes, usually but not necessarily UTF-8. -/
structure Text where
  bytes : List UInt8
deriving DecidableEq, Hashable, Inhabited, Repr

namespace Text

def ofString (s : String) : Text := ⟨s.toByteArray.data.toList⟩

/-- The bytes of an array, such as a piece cut out of a file. -/
def ofByteArray (data : ByteArray) : Text := ⟨data.data.toList⟩

instance : Coe String Text := ⟨ofString⟩

def empty : Text := ⟨[]⟩

instance : EmptyCollection Text := ⟨empty⟩

instance : Append Text := ⟨fun first second => ⟨first.bytes ++ second.bytes⟩⟩
instance : HAppend Text String Text := ⟨fun first second => first ++ ofString second⟩
instance : HAppend String Text Text := ⟨fun first second => ofString first ++ second⟩

@[simp] theorem bytes_append (first second : Text) :
    (first ++ second).bytes = first.bytes ++ second.bytes := rfl

@[ext] theorem ext {first second : Text} (same : first.bytes = second.bytes) :
    first = second := by
  cases first; cases second; cases same; rfl

def length (t : Text) : Nat := t.bytes.length

def isEmpty (t : Text) : Bool := t.bytes.isEmpty

def first? (t : Text) : Option UInt8 := t.bytes.head?

def tail (t : Text) : Text := ⟨t.bytes.tail⟩

def take (t : Text) (n : Nat) : Text := ⟨t.bytes.take n⟩

/-- Everything after the first `n` bytes. -/
def drop (t : Text) (n : Nat) : Text := ⟨t.bytes.drop n⟩

def startsWith (t start : Text) : Bool := start.bytes.isPrefixOf t.bytes

def endsWith (t finish : Text) : Bool := finish.bytes.isSuffixOf t.bytes

def occursIn (part : List UInt8) : List UInt8 → Bool
  | [] => part.isEmpty
  | b :: rest => part.isPrefixOf (b :: rest) || occursIn part rest

def contains (t part : Text) : Bool := occursIn part.bytes t.bytes

def containsByte (t : Text) (b : UInt8) : Bool := t.bytes.contains b

/-- The pieces between the occurrences of one byte; always at least one piece. -/
def splitBytes (separator : UInt8) : List UInt8 → List (List UInt8)
  | [] => [[]]
  | b :: rest =>
    match splitBytes separator rest with
    | [] => [[]]
    | piece :: pieces =>
      if b = separator then [] :: piece :: pieces else (b :: piece) :: pieces

/-- The pieces between the occurrences of one byte. -/
def splitOn (t : Text) (separator : UInt8) : List Text :=
  (splitBytes separator t.bytes).map Text.mk

/-- All texts, one after the other. -/
def concat (parts : List Text) : Text := ⟨parts.flatMap Text.bytes⟩

/-- All texts with `separator` between neighbours. -/
def join (separator : Text) : List Text → Text
  | [] => ∅
  | [only] => only
  | head :: rest => head ++ separator ++ join separator rest

def compareBytes : List UInt8 → List UInt8 → Ordering
  | [], [] => .eq
  | [], _ :: _ => .lt
  | _ :: _, [] => .gt
  | a :: as, b :: bs => if a < b then .lt else if b < a then .gt else compareBytes as bs

instance : Ord Text := ⟨fun first second => compareBytes first.bytes second.bytes⟩

/-- Whether one text comes before another, or is the same. -/
def le (first second : Text) : Bool := compare first second != .gt

/-- Texts in ascending byte order; equal texts keep their places. -/
def sort (texts : List Text) : List Text := texts.mergeSort le

def toString? (t : Text) : Option String := String.fromUTF8? ⟨t.bytes.toArray⟩

def toByteArray (t : Text) : ByteArray := ⟨t.bytes.toArray⟩

/-!
## Numbers in text

Decimal and hexadecimal digits, with the padding that addresses and columns use.
-/

/-- A natural number in decimal. -/
def ofNat (n : Nat) : Text := ofString n.repr

/-- An integer in decimal, with a minus sign when negative. -/
def ofInt : Int → Text
  | .ofNat n => ofNat n
  | .negSucc n => "-" ++ ofNat (n + 1)

/-- One hexadecimal digit, in lower case. -/
def hexDigit (n : Nat) : UInt8 :=
  if n < 10 then UInt8.ofNat (48 + n) else UInt8.ofNat (87 + n)

/-- Hexadecimal digits of a number, most significant first, none for zero. -/
def hexDigits (n : Nat) : List UInt8 :=
  if n = 0 then [] else hexDigits (n / 16) ++ [hexDigit (n % 16)]

/-- Copies of a byte in front of the digits until there are `width` of them. -/
def padLeft (width : Nat) (fill : UInt8) (t : Text) : Text :=
  ⟨List.replicate (width - t.length) fill ++ t.bytes⟩

/-- A number in hexadecimal with at least `width` digits, filled with zeros. -/
def hex (n width : Nat) : Text := padLeft width 48 ⟨hexDigits n⟩

/-- A byte as two hexadecimal digits. -/
def hexByte (b : UInt8) : Text := hex b.toNat 2

/-- Bytes as pairs of hexadecimal digits without separators. -/
def hexOf (bytes : List UInt8) : Text := concat (bytes.map hexByte)

/-- A number in decimal, filled with blanks on the left to `width` columns. -/
def column (width : Nat) (n : Int) : Text := padLeft width 32 (ofInt n)

end Text

end DexLift
