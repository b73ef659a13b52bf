import DexLift.Text.Basic

/-!
# Code points in byte strings

Reading a byte string as UTF-8 never fails: a byte that begins no well-formed
sequence stands for the replacement character on its own, one byte wide.
Well-formed means shortest form, no surrogates and nothing above U+10FFFF.
-/

namespace DexLift.Text

/-- A code point read from a byte string and the number of bytes it took. -/
structure Rune where
  code : Nat
  width : Nat
deriving DecidableEq, Repr

def replacement : Nat := 0xfffd

/-- A byte that begins no well-formed sequence. -/
def Rune.broken : Rune := ⟨replacement, 1⟩

/-- Whether the rune stands for a byte that is not part of any well-formed sequence. -/
def Rune.isBroken (r : Rune) : Bool := r.code == replacement && r.width == 1

/-- Whether a byte continues a sequence. -/
def isContinuation (b : UInt8) : Bool := b &&& 0xc0 == 0x80

/-- The six low bits of a continuation byte. -/
def continuationBits (b : UInt8) : Nat := (b &&& 0x3f).toNat

/-- The rune that begins with `lead` and may go on into the bytes that follow. -/
def readRune (lead : UInt8) (rest : List UInt8) : Rune :=
  if lead < 0x80 then ⟨lead.toNat, 1⟩
  else if lead < 0xc2 then .broken
  else if lead < 0xe0 then
    match rest with
    | b :: _ =>
      if isContinuation b then ⟨(lead &&& 0x1f).toNat * 64 + continuationBits b, 2⟩ else .broken
    | _ => .broken
  else if lead < 0xf0 then
    match rest with
    | b :: c :: _ =>
      let code := (lead &&& 0x0f).toNat * 4096 + continuationBits b * 64 + continuationBits c
      if isContinuation b && isContinuation c && code ≥ 0x800 &&
          !(code ≥ 0xd800 && code ≤ 0xdfff) then ⟨code, 3⟩
      else .broken
    | _ => .broken
  else if lead < 0xf5 then
    match rest with
    | b :: c :: d :: _ =>
      let code := (lead &&& 0x07).toNat * 262144 + continuationBits b * 4096 +
        continuationBits c * 64 + continuationBits d
      if isContinuation b && isContinuation c && isContinuation d && code ≥ 0x10000 &&
          code ≤ 0x10ffff then ⟨code, 4⟩
      else .broken
    | _ => .broken
  else .broken

def runesOf : List UInt8 → List Rune
  | [] => []
  | lead :: rest =>
    let rune := readRune lead rest
    rune :: runesOf (rest.drop (rune.width - 1))
termination_by bytes => bytes.length
decreasing_by simp only [List.length_drop, List.length_cons]; omega

def runes (t : Text) : List Rune := runesOf t.bytes

/-- Whether the whole text is well-formed UTF-8. -/
def isUtf8 (t : Text) : Bool := t.runes.all fun r => !r.isBroken

/-- Whether a number is a code point that UTF-8 can hold. -/
def isScalar (code : Nat) : Bool :=
  code < 0xd800 || (code > 0xdfff && code ≤ 0x10ffff)

/-- The UTF-8 bytes of a code point; what cannot be encoded becomes the replacement character. -/
def encodeRune (code : Nat) : List UInt8 :=
  let c := if isScalar code then code else replacement
  let low (n : Nat) : UInt8 := UInt8.ofNat (0x80 + n % 64)
  if c < 0x80 then [UInt8.ofNat c]
  else if c < 0x800 then [UInt8.ofNat (0xc0 + c / 64), low c]
  else if c < 0x10000 then [UInt8.ofNat (0xe0 + c / 4096), low (c / 64), low c]
  else [UInt8.ofNat (0xf0 + c / 262144), low (c / 4096), low (c / 64), low c]

/-- The text made of the given code points. -/
def ofCodes (codes : List Nat) : Text := ⟨codes.flatMap encodeRune⟩

/-- The text with every broken byte left out. -/
def dropBroken (t : Text) : Text :=
  ofCodes ((t.runes.filter fun r => !r.isBroken).map Rune.code)

/-!
## Blanks

The code points that count as white space: the ASCII ones with the vertical tab,
the next-line control, and the separators of the standard.
-/

/-- Whether a code point is white space. -/
def isBlank (code : Nat) : Bool :=
  (9 ≤ code && code ≤ 13) || (0x2000 ≤ code && code ≤ 0x200a) ||
    [0x20, 0x85, 0xa0, 0x1680, 0x2028, 0x2029, 0x202f, 0x205f, 0x3000].contains code

/-- The bytes of the blanks that some runes begin with. -/
def blankWidth (runes : List Rune) : Nat :=
  ((runes.takeWhile fun r => isBlank r.code).map Rune.width).foldr (· + ·) 0

/-- The text without the blanks at both ends. -/
def trim (t : Text) : Text :=
  let inner := t.drop (blankWidth t.runes)
  inner.take (inner.length - blankWidth inner.runes.reverse)

end DexLift.Text
