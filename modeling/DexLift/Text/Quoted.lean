import DexLift.Text.Printable
import DexLift.Text.Utf8

/-!
# Quoted text

A quoted text shows every byte of what it quotes. Printable code points stand
for themselves, the usual control characters have their one-letter escapes, and
anything else is written by number: a broken byte with two digits, a code point
with two, four or eight.
-/

namespace DexLift.Text

/-- A backslash followed by one character. -/
def escapeLetter (letter : Char) : Text := ⟨[92, letter.toUInt8]⟩

/-- How one code point is written between quotes of the given kind. -/
def escapeCode (quote code : Nat) : Text :=
  if code = quote ∨ code = 92 then ⟨92 :: encodeRune code⟩
  else if isPrintable code then ⟨encodeRune code⟩
  else
    match code with
    | 7 => escapeLetter 'a'
    | 8 => escapeLetter 'b'
    | 12 => escapeLetter 'f'
    | 10 => escapeLetter 'n'
    | 13 => escapeLetter 'r'
    | 9 => escapeLetter 't'
    | 11 => escapeLetter 'v'
    | _ =>
      if code < 32 ∨ code = 127 then escapeLetter 'x' ++ hex code 2
      else if code < 0x10000 then escapeLetter 'u' ++ hex code 4
      else escapeLetter 'U' ++ hex code 8

def escapeBytes : List UInt8 → Text
  | [] => ∅
  | lead :: rest =>
    let rune := readRune lead rest
    let shown := if rune.isBroken then escapeLetter 'x' ++ hexByte lead else escapeCode 34 rune.code
    shown ++ escapeBytes (rest.drop (rune.width - 1))
termination_by bytes => bytes.length
decreasing_by simp only [List.length_drop, List.length_cons]; omega

def quote (t : Text) : Text := "\"" ++ escapeBytes t.bytes ++ "\""

/-- A code point between single quotes; what is no code point shows the replacement character. -/
def quoteCode (code : Nat) : Text :=
  "'" ++ escapeCode 39 (if isScalar code then code else replacement) ++ "'"

/-!
## Reading numbers

Digits in some base, and numbers whose base is told by how they begin:
hexadecimal, octal or binary after a mark, octal after a zero, else decimal.
Underscores may stand between digits.
-/

def digit? (base : Nat) (b : UInt8) : Option Nat :=
  let n := b.toNat
  let value := if 48 ≤ n ∧ n ≤ 57 then n - 48
    else if 97 ≤ n ∧ n ≤ 122 then n - 87
    else if 65 ≤ n ∧ n ≤ 90 then n - 55
    else base
  if value < base then some value else none

/-- The number that digits spell; without digits it is zero. -/
def digits? (base : Nat) (digits : List UInt8) : Option Nat :=
  digits.foldlM (fun n b => (digit? base b).map fun d => n * base + d) 0

/-- The number that digits spell; there must be at least one. -/
def number? (base : Nat) (digits : List UInt8) : Option Nat :=
  if digits.isEmpty then none else digits? base digits

/-- The base of a number and what follows its mark. A mark needs at least one more character. -/
def baseOf : List UInt8 → Nat × List UInt8
  | 48 :: mark :: digit :: rest =>
    if mark = 120 ∨ mark = 88 then (16, digit :: rest)
    else if mark = 111 ∨ mark = 79 then (8, digit :: rest)
    else if mark = 98 ∨ mark = 66 then (2, digit :: rest)
    else (8, mark :: digit :: rest)
  | 48 :: rest => (8, rest)
  | digits => (10, digits)

/-- Whether every underscore follows a digit or the mark, and is followed by something else than an
underscore. -/
def underscoresSeparate (afterDigit : Bool) : List UInt8 → Bool
  | [] => true
  | 95 :: rest => afterDigit && rest.head?.any (· != 95) && underscoresSeparate false rest
  | _ :: rest => underscoresSeparate true rest

/-- A number without a sign. -/
def unsigned? (bytes : List UInt8) : Option Nat :=
  if bytes.isEmpty then none
  else
    let (base, digits) := baseOf bytes
    if underscoresSeparate (base != 10) digits then
      digits? base (digits.filter (· != 95))
    else none

def signed? : List UInt8 → Option Int
  | 45 :: rest => (unsigned? rest).map fun n => -(n : Int)
  | 43 :: rest => (unsigned? rest).map fun n => (n : Int)
  | bytes => (unsigned? bytes).map fun n => (n : Int)

end DexLift.Text
