import DexLift.Jvm.Bytes
import Mathlib.Data.List.Basic
import Mathlib.Data.Option.Basic
import Mathlib.Tactic.Linarith

/-!
# Reading back what was written

A step reads some bytes from an address on when it gives its value from every
scanner that has them there, and leaves the scanner right behind them. Steps that
read are put together along the bytes. Numbers are read as they were written, as
far as they fit.
-/

namespace DexLift.Jvm.Scan

open List

variable {n : Int}

variable {α β : Type}

/-- A scanner that has some bytes in front of it at an address. -/
structure Before (s : Scanner) (pc : Nat) (bytes : List UInt8) : Prop where
  off : s.off = pc
  fine : s.failure = none
  inside : pc ≤ s.data.size
  ahead : bytes <+: s.data.data.toList.drop pc

def Reads (pc : Nat) (step : Scan α) (bytes : List UInt8) (value : α) : Prop :=
  ∀ s, Before s pc bytes → step.run s = (value, { s with off := pc + bytes.length })

section Before

variable {s : Scanner} {pc : Nat} {bytes more : List UInt8}

theorem Before.fits (before : Before s pc bytes) : pc + bytes.length ≤ s.data.size := by
  have short : bytes.length ≤ s.data.size - pc := by
    have short := before.ahead.length_le
    rwa [length_drop] at short
  have inside := before.inside
  omega

theorem Before.left (before : Before s pc (bytes ++ more)) : Before s pc bytes :=
  ⟨before.off, before.fine, before.inside, (prefix_append bytes more).trans before.ahead⟩

theorem Before.right (before : Before s pc (bytes ++ more)) :
    Before { s with off := pc + bytes.length } (pc + bytes.length) more := by
  refine ⟨rfl, before.fine, before.left.fits, ?_⟩
  obtain ⟨rest, split⟩ := before.ahead
  refine ⟨rest, ?_⟩
  rw [← drop_drop, ← split, append_assoc, drop_left]

theorem Before.extract (before : Before s pc bytes) :
    (s.data.extract pc (pc + bytes.length)).data.toList = bytes := by
  rw [ByteArray.data_extract, Array.toList_extract, extract_eq_take_drop, Nat.add_sub_cancel_left]
  exact (prefix_iff_eq_take.mp before.ahead).symm

end Before

/-! ## Putting steps together -/

variable {next : α → Scan β} {result : β}

section Steps

variable {pc : Nat} {step : Scan α} {bytes more : List UInt8} {value : α}

theorem Reads.pure (value : α) : Reads pc (Pure.pure value : Scan α) [] value := by
  intro s before
  obtain ⟨data, off, failure⟩ := s
  cases before.off
  rfl

theorem Reads.bind (first : Reads pc step bytes value)
    (second : Reads (pc + bytes.length) (next value) more result) :
    Reads pc (step >>= next) (bytes ++ more) result := by
  intro s before
  rw [StateT.run_bind, first s before.left]
  change (next value).run _ = _
  rw [second _ before.right, length_append, Nat.add_assoc]

theorem Reads.bind_nil (first : Reads pc step bytes value)
    (second : Reads (pc + bytes.length) (next value) [] result) :
    Reads pc (step >>= next) bytes result := by
  have both := first.bind second
  rwa [append_nil] at both

theorem Reads.map (reads : Reads pc step bytes value) (change : α → β) :
    Reads pc (step >>= fun value => Pure.pure (change value)) bytes (change value) :=
  reads.bind_nil (.pure _)

theorem Reads.nil_bind (first : Reads pc step [] value)
    (second : Reads pc (next value) bytes result) : Reads pc (step >>= next) bytes result :=
  first.bind second

theorem reads_isFine : Reads pc isFine [] true := by
  intro s before
  obtain ⟨data, off, failure⟩ := s
  cases before.off
  cases before.fine
  rfl

theorem reads_bytes {n : Nat} (size : bytes.length = n) : Reads pc (Scan.bytes n) bytes bytes := by
  intro s before
  have room : ¬ s.off + n > s.data.size := by
    rw [before.off, ← size]
    exact Nat.not_lt.mpr before.fits
  have run : (Scan.bytes n).run s =
      ((s.data.extract s.off (s.off + n)).data.toList, { s with off := s.off + n }) := by
    simp only [Scan.bytes, StateT.run_bind, StateT.run_get, before.fine, Option.isSome_none,
      Bool.false_eq_true, if_false, pure_bind, if_neg room]
    rfl
  rw [run, before.off, ← size, before.extract]

end Steps

/-! ## Numbers -/

theorem number_u2 (n : UInt16) : number (Jvm.u2 n) = n.toNat := by
  have small := n.toNat_lt
  simp only [number, Jvm.u2, foldl_cons, foldl_nil, UInt16.toNat_toUInt8,
    UInt16.toNat_shiftRight, Nat.shiftRight_eq_div_pow]
  change (0 * 256 + n.toNat / 2 ^ 8 % 256) * 256 + n.toNat % 256 = n.toNat
  omega

theorem number_u4 (n : UInt32) : number (Jvm.u4 n) = n.toNat := by
  have small := n.toNat_lt
  simp only [number, Jvm.u4, foldl_cons, foldl_nil, UInt32.toNat_toUInt8,
    UInt32.toNat_shiftRight, Nat.shiftRight_eq_div_pow]
  change (((0 * 256 + n.toNat / 2 ^ 24 % 256) * 256 + n.toNat / 2 ^ 16 % 256) * 256 +
    n.toNat / 2 ^ 8 % 256) * 256 + n.toNat % 256 = n.toNat
  omega

section Numbers

variable {pc : Nat}

theorem reads_u1 (b : UInt8) : Reads pc u1 [b] b := by
  have reads := (reads_bytes rfl : Reads pc (bytes 1) [b] [b]).map fun bs =>
    UInt8.ofNat (number bs)
  have value : UInt8.ofNat (number [b]) = b := by simp [number]
  rwa [value] at reads

theorem reads_u2 (n : UInt16) : Reads pc u2 (Jvm.u2 n) n := by
  have reads := (reads_bytes rfl : Reads pc (bytes 2) (Jvm.u2 n) (Jvm.u2 n)).map fun bs =>
    UInt16.ofNat (number bs)
  rwa [number_u2, UInt16.ofNat_toNat] at reads

theorem reads_u4 (n : UInt32) : Reads pc u4 (Jvm.u4 n) n := by
  have reads := (reads_bytes rfl : Reads pc (bytes 4) (Jvm.u4 n) (Jvm.u4 n)).map fun bs =>
    UInt32.ofNat (number bs)
  rwa [number_u4, UInt32.ofNat_toNat] at reads

theorem reads_u2OfNat {α : Type} (next : Nat → Scan α) {n : Nat} (small : n ≤ 65535)
    {more : List UInt8} {value : α} (reads : Reads (pc + 2) (next n) more value) :
    Reads pc (do next (← u2).toNat) (u2OfNat n ++ more) value := by
  refine (reads_u2 (UInt16.ofNat n)).bind ?_
  rwa [UInt16.toNat_ofNat_of_lt' (Nat.lt_succ_of_le small)]

theorem toInt_byteOfInt (low : -128 ≤ n) (high : n ≤ 127) : (byteOfInt n).toInt8.toInt = n := by
  change (BitVec.ofNat 8 (n % 256).toNat).toInt = n
  rw [BitVec.toInt_ofNat', Int.bmod_def]
  omega

theorem reads_s1 (low : -128 ≤ n) (high : n ≤ 127) : Reads pc s1 [byteOfInt n] n := by
  have reads := (reads_u1 (byteOfInt n) : Reads pc _ _ _).map fun b => b.toInt8.toInt
  rwa [toInt_byteOfInt low high] at reads

theorem toInt_lowWord (low : -32768 ≤ n) (high : n ≤ 32767) :
    (UInt16.ofNat (n % 65536).toNat).toInt16.toInt = n := by
  change (BitVec.ofNat 16 (n % 65536).toNat).toInt = n
  rw [BitVec.toInt_ofNat', Int.bmod_def]
  omega

theorem reads_s2 (low : -32768 ≤ n) (high : n ≤ 32767) : Reads pc s2 (u2OfInt n) n := by
  have reads := (reads_u2 (UInt16.ofNat (n % 65536).toNat) : Reads pc _ _ _).map fun b =>
    b.toInt16.toInt
  rwa [toInt_lowWord low high] at reads

theorem reads_s4 (low : -2147483648 ≤ n) (high : n ≤ 2147483647) : Reads pc s4 (u4OfInt n) n := by
  have reads := (reads_u4 (UInt32.ofNat (n % 4294967296).toNat) : Reads pc _ _ _).map fun b =>
    b.toInt32.toInt
  have value : (UInt32.ofNat (n % 4294967296).toNat).toInt32.toInt = n := by
    change (BitVec.ofNat 32 (n % 4294967296).toNat).toInt = n
    rw [BitVec.toInt_ofNat', Int.bmod_def]
    omega
  rwa [value] at reads

end Numbers

end DexLift.Jvm.Scan

/-!
# Reading bytes by the rules of a format

The rules of a format are stated as a reader that takes bytes from the front. What was
written is right when the reader takes exactly those bytes and gives what they were
written for, whatever follows them.
-/

namespace DexLift.Jvm

/-- A reader that takes bytes from the front and leaves the rest. -/
abbrev Decode := StateT (List UInt8) Option

namespace Decode

variable {bytes rest : List UInt8} {n : Nat}

def byte : Decode UInt8 := fun bytes =>
  match bytes with
  | [] => none
  | b :: rest => some (b, rest)

/-- The number in the next two bytes. -/
def count : Decode Nat := do
  let high ← byte
  return 256 * high.toNat + (← byte).toNat

variable {α β : Type}

/-- As many things as asked for. -/
def times (decode : Decode α) : Nat → Decode (List α)
  | 0 => return []
  | n + 1 => do
    let first ← decode
    return first :: (← times decode n)

/-! ## What a reader yields -/

/-- A reader takes exactly some bytes, whatever follows them. -/
def Yields (decode : Decode α) (bytes : List UInt8) (value : α) : Prop :=
  ∀ rest, decode.run (bytes ++ rest) = some (value, rest)

theorem Yields.pure (value : α) : Yields (Pure.pure value) [] value := fun _ => rfl

variable {first : Decode α} {next : α → Decode β} {result : β}

theorem Yields.bind {first : Decode α} {next : α → Decode β} {more : List UInt8} {value : α}
    {result : β} (reads : Yields first bytes value) (goesOn : Yields (next value) more result) :
    Yields (first >>= next) (bytes ++ more) result := by
  intro rest
  rw [StateT.run_bind, List.append_assoc, reads]
  exact goesOn rest

theorem Yields.bind_nil {value : α} (reads : Yields first bytes value)
    (goesOn : Yields (next value) [] result) : Yields (first >>= next) bytes result := by
  have both := reads.bind goesOn
  rwa [List.append_nil] at both

theorem yields_byte (b : UInt8) : Yields byte [b] b := fun _ => rfl

theorem yields_index (i : UInt16) : Yields count (u2 i) i.toNat := by
  have small := i.toNat_lt
  have value : i.toNat = 256 * (i >>> 8).toUInt8.toNat + i.toUInt8.toNat := by
    rw [UInt16.toNat_toUInt8, UInt16.toNat_toUInt8, UInt16.toNat_shiftRight,
      Nat.shiftRight_eq_div_pow]
    change i.toNat = 256 * (i.toNat / 2 ^ 8 % 256) + i.toNat % 256
    omega
  rw [value]
  refine (yields_byte (i >>> 8).toUInt8).bind ?_
  exact (yields_byte i.toUInt8).bind_nil (.pure _)

theorem yields_count (small : n ≤ 65535) : Yields count (u2OfNat n) n := by
  have reads := yields_index (UInt16.ofNat n)
  rwa [UInt16.toNat_ofNat_of_lt' (Nat.lt_succ_of_le small)] at reads

/-! ## What a reader has read -/

theorem run_bind_eq_some :
    (first >>= next).run bytes = some (result, rest) ↔
      ∃ value left, first.run bytes = some (value, left) ∧
        (next value).run left = some (result, rest) := by
  rw [StateT.run_bind]
  change Option.bind _ _ = _ ↔ _
  rw [Option.bind_eq_some_iff, Prod.exists]

theorem count_le (read : count.run bytes = some (n, rest)) : n ≤ 65535 := by
  obtain ⟨high, left, -, read⟩ := run_bind_eq_some.mp read
  obtain ⟨low, end_, -, read⟩ := run_bind_eq_some.mp read
  obtain ⟨rfl, -⟩ : 256 * high.toNat + low.toNat = n ∧ end_ = rest := by
    simpa using read
  have := high.toNat_lt
  have := low.toNat_lt
  omega

theorem length_times {decode : Decode α} {values : List α}
    (read : (times decode n).run bytes = some (values, rest)) : values.length = n := by
  induction n generalizing bytes values rest with
  | zero =>
    obtain ⟨rfl, -⟩ : [] = values ∧ bytes = rest := by simpa [times] using read
    rfl
  | succ n ih =>
    obtain ⟨first, left, -, read⟩ := run_bind_eq_some.mp read
    obtain ⟨others, end_, readOthers, read⟩ := run_bind_eq_some.mp read
    obtain ⟨rfl, -⟩ : first :: others = values ∧ end_ = rest := by simpa using read
    rw [List.length_cons, ih readOthers]

end Decode

end DexLift.Jvm
