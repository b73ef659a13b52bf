import DexLift.Failure
import DexLift.Text.Utf8

/-!
# Modified UTF-8

DEX string data and class-file text encode each UTF-16 unit on its own, in one
to three bytes, and write the null character in two bytes so that a zero byte
can end a string. Code points above U+FFFF take two surrogate units.
-/

namespace DexLift.Mutf8

def scan (bytes : List UInt8) : Except Cause (Nat × Nat) :=
  match bytes with
  | [] => .error .endOfData
  | b :: rest =>
    if b = 0 then .ok (0, 0)
    else if b < 0x80 then (scan rest).map fun (n, units) => (n + 1, units + 1)
    else if b &&& 0xe0 = 0xc0 then
      match rest with
      | c :: rest =>
        if Text.isContinuation c then (scan rest).map fun (n, units) => (n + 2, units + 1)
        else .error .mutf8
      | [] => .error .mutf8
    else if b &&& 0xf0 = 0xe0 then
      match rest with
      | c :: d :: rest =>
        if Text.isContinuation c && Text.isContinuation d then
          (scan rest).map fun (n, units) => (n + 3, units + 1)
        else .error .mutf8
      | _ => .error .mutf8
    else .error .mutf8

/-- The UTF-16 units of a byte list. Continuation bytes are not checked, and a byte that cannot
begin a unit stands for the replacement character. -/
def units : List UInt8 → List UInt16
  | [] => []
  | b :: rest =>
    if b < 0x80 then b.toUInt16 :: units rest
    else if b &&& 0xe0 = 0xc0 then
      match rest with
      | c :: rest => ((b &&& 0x1f).toUInt16 <<< 6 ||| (c &&& 0x3f).toUInt16) :: units rest
      | [] => [0xfffd]
    else if b &&& 0xf0 = 0xe0 then
      match rest with
      | c :: d :: rest =>
        ((b &&& 0x0f).toUInt16 <<< 12 ||| (c &&& 0x3f).toUInt16 <<< 6 |||
          (d &&& 0x3f).toUInt16) :: units rest
      | c :: [] => 0xfffd :: units [c]
      | [] => [0xfffd]
    else 0xfffd :: units rest

/-- Whether a unit is the first half of a pair. -/
def isHigh (u : UInt16) : Bool := 0xd800 ≤ u && u < 0xdc00

/-- Whether a unit is the second half of a pair. -/
def isLow (u : UInt16) : Bool := 0xdc00 ≤ u && u < 0xe000

/-- The code points of UTF-16 units; a surrogate without its partner becomes the replacement
character. -/
def joinUnits : List UInt16 → List Nat
  | [] => []
  | [u] => [if isHigh u || isLow u then Text.replacement else u.toNat]
  | u :: v :: rest =>
    if isHigh u && isLow v then
      (0x10000 + (u.toNat - 0xd800) * 1024 + (v.toNat - 0xdc00)) :: joinUnits rest
    else (if isHigh u || isLow u then Text.replacement else u.toNat) :: joinUnits (v :: rest)

/-- Modified UTF-8 read as UTF-8. Bytes below 128 are the same in both. -/
def decode (t : Text) : Text :=
  if t.bytes.all fun b => b < 0x80 then t else Text.ofCodes (joinUnits (units t.bytes))

def unitsOf (code : Nat) : List UInt16 :=
  if code < 0x10000 then [UInt16.ofNat code]
  else
    [UInt16.ofNat (0xd800 + (code - 0x10000) / 1024),
     UInt16.ofNat (0xdc00 + (code - 0x10000) % 1024)]

def encodeUnit (u : UInt16) : List UInt8 :=
  if u ≠ 0 ∧ u < 0x80 then [u.toUInt8]
  else
    let last := (u &&& 0x3f).toUInt8 ||| 0x80
    if u < 0x800 then [(u >>> 6).toUInt8 ||| 0xc0, last]
    else [(u >>> 12).toUInt8 ||| 0xe0, ((u >>> 6) &&& 0x3f).toUInt8 ||| 0x80, last]

/-- UTF-8 written as modified UTF-8; broken bytes are written as replacement characters. Bytes
below 128 other than zero are the same in both. -/
def encode (t : Text) : Text :=
  if t.bytes.all fun b => b ≠ 0 && b < 0x80 then t
  else ⟨t.runes.flatMap fun rune => (unitsOf rune.code).flatMap encodeUnit⟩

end DexLift.Mutf8
