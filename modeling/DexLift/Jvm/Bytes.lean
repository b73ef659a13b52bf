import DexLift.Failure

/-!
# Big-endian numbers

Class files keep numbers with the most significant byte first.
-/

namespace DexLift.Jvm

/-- Two bytes, the high one first. -/
def u2 (n : UInt16) : List UInt8 := [(n >>> 8).toUInt8, n.toUInt8]

/-- Four bytes, the highest one first. -/
def u4 (n : UInt32) : List UInt8 :=
  [(n >>> 24).toUInt8, (n >>> 16).toUInt8, (n >>> 8).toUInt8, n.toUInt8]

/-- Eight bytes, the highest one first. -/
def u8 (n : UInt64) : List UInt8 := u4 (n >>> 32).toUInt32 ++ u4 n.toUInt32

/-- The low 16 bits of a number in two bytes. -/
def u2OfInt (n : Int) : List UInt8 := u2 (UInt16.ofNat (n % 65536).toNat)

/-- The low 32 bits of a number in four bytes. -/
def u4OfInt (n : Int) : List UInt8 := u4 (UInt32.ofNat (n % 4294967296).toNat)

/-- The low 16 bits of a count in two bytes. -/
def u2OfNat (n : Nat) : List UInt8 := u2 (UInt16.ofNat n)

/-- The low 32 bits of a count in four bytes. -/
def u4OfNat (n : Nat) : List UInt8 := u4 (UInt32.ofNat n)

/-- The low 8 bits of a number. -/
def byteOfInt (n : Int) : UInt8 := UInt8.ofNat (n % 256).toNat

/-!
## Reading class files

A scanner goes through bytes. A read that needs more bytes than are left gives 0
and leaves a failure behind; after that every read gives 0. So a reader can go
on to a good place to stop before it asks whether something failed.
-/

/-- Bytes, the position in them and the first failure. -/
structure Scanner where
  data : ByteArray
  off : Nat := 0
  failure : Option Failure := none

abbrev Scan := StateM Scanner

namespace Scan

/-- Whether nothing failed so far. -/
def isFine : Scan Bool := do return (← get).failure.isNone

/-- The next `n` bytes; none of them when too few are left. -/
def bytes (n : Nat) : Scan (List UInt8) := do
  let s ← get
  if s.failure.isSome then return []
  else if s.off + n > s.data.size then
    let detail := "need " ++ Text.ofNat n ++ " bytes at offset " ++ Text.ofNat s.off
    set { s with failure := some ⟨[.detail detail], .classTruncated⟩ }
    return []
  else
    set { s with off := s.off + n }
    return (s.data.extract s.off (s.off + n)).data.toList

/-- The number that some bytes spell, the high one first. -/
def number (bs : List UInt8) : Nat := bs.foldl (fun n b => n * 256 + b.toNat) 0

def u1 : Scan UInt8 := do return UInt8.ofNat (number (← bytes 1))

def u2 : Scan UInt16 := do return UInt16.ofNat (number (← bytes 2))

def u4 : Scan UInt32 := do return UInt32.ofNat (number (← bytes 4))

/-- The next two bytes as a signed number. -/
def s2 : Scan Int := do return (← u2).toInt16.toInt

/-- The next four bytes as a signed number. -/
def s4 : Scan Int := do return (← u4).toInt32.toInt

/-- The next byte as a signed number. -/
def s1 : Scan Int := do return (← u1).toInt8.toInt

/-- Repeats a step at most `n` times, until something fails, and collects what it gives. -/
def upTo {α : Type} (step : Scan α) : (n : Nat) → Scan (List α)
  | 0 => return []
  | n + 1 => do
    if ← isFine then
      let a ← step
      return a :: (← upTo step n)
    else return []

/-- Repeats a step as often as the next two bytes say, until something fails. -/
def counted {α : Type} (step : Scan α) : Scan (List α) := do upTo step (← u2).toNat

end Scan

end DexLift.Jvm
