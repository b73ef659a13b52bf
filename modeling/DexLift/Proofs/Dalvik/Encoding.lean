import DexLift.Proofs.Dalvik.Addresses
import DexLift.Proofs.Dalvik.Opcodes
import Mathlib

namespace DexLift.Dex

open List UInt16

/-! ## Encodings -/

/-- The encodings with their opcodes, as ranges. Opcodes that are not in use are units of their own,
as those without operands are. -/
def encodings : List (Format × List (Nat × Nat)) := [
  (.f12x, [(0x01, 0x01), (0x04, 0x04), (0x07, 0x07), (0x21, 0x21), (0x7b, 0x8f), (0xb0, 0xcf)]),
  (.f11n, [(0x12, 0x12)]),
  (.f11x, [(0x0a, 0x0d), (0x0f, 0x11), (0x1d, 0x1e), (0x27, 0x27)]),
  (.f10t, [(0x28, 0x28)]),
  (.f20t, [(0x29, 0x29)]),
  (.f22x, [(0x02, 0x02), (0x05, 0x05), (0x08, 0x08)]),
  (.f21t, [(0x38, 0x3d)]),
  (.f21s, [(0x13, 0x13), (0x16, 0x16)]),
  (.f21h, [(0x15, 0x15), (0x19, 0x19)]),
  (.f21c, [(0x1a, 0x1a), (0x1c, 0x1c), (0x1f, 0x1f), (0x22, 0x22), (0x60, 0x6d), (0xfe, 0xff)]),
  (.f23x, [(0x2d, 0x31), (0x44, 0x51), (0x90, 0xaf)]),
  (.f22b, [(0xd8, 0xe2)]),
  (.f22t, [(0x32, 0x37)]),
  (.f22s, [(0xd0, 0xd7)]),
  (.f22c, [(0x20, 0x20), (0x23, 0x23), (0x52, 0x5f)]),
  (.f30t, [(0x2a, 0x2a)]),
  (.f32x, [(0x03, 0x03), (0x06, 0x06), (0x09, 0x09)]),
  (.f31i, [(0x14, 0x14), (0x17, 0x17)]),
  (.f31t, [(0x26, 0x26), (0x2b, 0x2c)]),
  (.f31c, [(0x1b, 0x1b)]),
  (.f35c, [(0x24, 0x24), (0x6e, 0x72), (0xfc, 0xfc)]),
  (.f3rc, [(0x25, 0x25), (0x74, 0x78), (0xfd, 0xfd)]),
  (.f45cc, [(0xfa, 0xfa)]),
  (.f4rcc, [(0xfb, 0xfb)]),
  (.f51l, [(0x18, 0x18)])]

def Opcode.encoding (op : Opcode) : Format :=
  ((encodings.find? fun (_, ranges) => ranges.any fun (first, last) =>
    first ≤ op.code.toNat && op.code.toNat ≤ last).map Prod.fst).getD .f10x

theorem Opcode.encoding_eq (op : Opcode) : op.encoding = op.format := by
  have holds : (op.encoding == op.format) = true :=
    format_flow_of_runs (p := fun op format _ => op.encoding == format) (by decide +kernel)
      (by decide +kernel) op
  exact beq_iff_eq.mp holds

/-! ## Operands in range -/

variable {w high low : UInt16} {n : Int} {regs : List UInt16} {format : Format} {xs : List Int32}
  {k width : Nat} {values : List Int64} {i : Instruction}

/-- The signed numbers of a width in bits; without a bit there is zero only. -/
def SignedIn (bits : Nat) (n : Int) : Prop := -2 ^ bits ≤ 2 * n ∧ 2 * n < 2 ^ bits

def Format.registerBits : Format → List Nat
  | f12x | f22t | f22s | f22c => [4, 4]
  | f11n => [4]
  | f11x | f21t | f21s | f21h | f21c | f31i | f31t | f31c | f51l => [8]
  | f22x => [8, 16]
  | f23x => [8, 8, 8]
  | f22b => [8, 8]
  | f32x => [16, 16]
  | _ => []

def Format.literalBits : Format → Nat
  | f11n => 4
  | f22b => 8
  | f21s | f22s | f21h => 16
  | f31i => 32
  | f51l => 64
  | _ => 0

/-- The width in bits of the distance to a branch target or a table. -/
def Format.offsetBits : Format → Nat
  | f10t => 8
  | f20t | f21t | f22t => 16
  | f30t | f31t => 32
  | _ => 0

/-- The width in bits of the index of a string, type, field or method. -/
def Format.indexBits : Format → Nat
  | f21c | f22c | f35c | f3rc | f45cc | f4rcc => 16
  | f31c => 32
  | _ => 0

/-- The width in bits of the index of a prototype. -/
def Format.protoBits : Format → Nat
  | f45cc | f4rcc => 16
  | _ => 0

/-- Registers as an encoding can name them: at most five in four bits each, neighbouring ones from
a first one on, or one for each of its places. -/
def Format.Names (format : Format) (regs : List UInt16) : Prop :=
  match format with
  | f35c | f45cc => regs.length ≤ 5 ∧ ∀ r ∈ regs, r.toNat < 16
  | f3rc | f4rcc =>
    regs.length < 256 ∧ regs.map UInt16.toNat = range' (regs.getD 0 0).toNat regs.length
  | _ => Forall₂ (fun r bits => r.toNat < 2 ^ bits) regs format.registerBits

instance (bits : Nat) (n : Int) : Decidable (SignedIn bits n) :=
  inferInstanceAs (Decidable (_ ∧ _))

instance (format : Format) (regs : List UInt16) : Decidable (format.Names regs) := by
  cases format
  case f35c | f45cc | f3rc | f4rcc => exact inferInstanceAs (Decidable (_ ∧ _))
  all_goals exact inferInstanceAs (Decidable (Forall₂ _ _ _))

namespace Instruction

def offset (i : Instruction) : Int32 := (i.target - i.addr).toInt32

/-- A literal is a multiple of this power of two; the zeros are not encoded. -/
def literalShift (i : Instruction) : Nat :=
  if i.op.encoding = .f21h then if i.op.code = 0x19 then 48 else 16 else 0

/-- Every operand is in the range of its place in an encoding, and what the encoding has no place
for is zero. -/
@[mk_iff]
structure FitsIn (format : Format) (i : Instruction) : Prop where
  registers : format.Names i.regs
  literal : SignedIn format.literalBits (i.lit.toInt / 2 ^ i.literalShift)
  zeros : i.lit.toInt % 2 ^ i.literalShift = 0
  index : i.index.toNat < 2 ^ format.indexBits
  proto : i.proto.toNat < 2 ^ format.protoBits
  target : if format.offsetBits = 0 then i.target = 0
    else SignedIn format.offsetBits i.offset.toInt

instance (format : Format) (i : Instruction) : Decidable (FitsIn format i) :=
  decidable_of_iff _ (fitsIn_iff format i).symm

end Instruction

/-! ## The encoding -/

/-- The low bits of a number in two's complement. -/
def lowBits (bits : Nat) (n : Int) : UInt16 := UInt16.ofNat (n % 2 ^ bits).toNat

/-- A number in units, the lowest one first. -/
def spread : Nat → Int → List UInt16
  | 0, _ => []
  | count + 1, n => lowBits 16 n :: spread count (n / 2 ^ 16)

namespace Instruction

/-- A register operand. -/
def reg (i : Instruction) (k : Nat) : UInt16 := i.regs.getD k 0

/-- The opcode and a byte behind it. -/
def opcodeUnit (i : Instruction) (high : UInt16) : UInt16 := i.op.code.toUInt16 + 256 * high

def units (i : Instruction) : List UInt16 :=
  let byte := i.opcodeUnit
  let nibbles (low high : UInt16) := i.opcodeUnit (low + 16 * high)
  let few := i.reg 0 + 16 * i.reg 1 + 256 * i.reg 2 + 4096 * i.reg 3
  let count := UInt16.ofNat i.regs.length
  let index := lowBits 16 i.index.toNat
  let proto := lowBits 16 i.proto.toNat
  let literal := i.lit.toInt / 2 ^ i.literalShift
  match i.op.encoding with
  | .f10x => [byte 0]
  | .f12x => [nibbles (i.reg 0) (i.reg 1)]
  | .f11n => [nibbles (i.reg 0) (lowBits 4 literal)]
  | .f11x => [byte (i.reg 0)]
  | .f10t => [byte (lowBits 8 i.offset.toInt)]
  | .f20t => byte 0 :: spread 1 i.offset.toInt
  | .f22x => [byte (i.reg 0), i.reg 1]
  | .f21t => byte (i.reg 0) :: spread 1 i.offset.toInt
  | .f21s | .f21h => byte (i.reg 0) :: spread 1 literal
  | .f21c => [byte (i.reg 0), index]
  | .f23x => [byte (i.reg 0), i.reg 1 + 256 * i.reg 2]
  | .f22b => [byte (i.reg 0), i.reg 1 + 256 * lowBits 8 literal]
  | .f22t => nibbles (i.reg 0) (i.reg 1) :: spread 1 i.offset.toInt
  | .f22s => nibbles (i.reg 0) (i.reg 1) :: spread 1 literal
  | .f22c => [nibbles (i.reg 0) (i.reg 1), index]
  | .f30t => byte 0 :: spread 2 i.offset.toInt
  | .f32x => [byte 0, i.reg 0, i.reg 1]
  | .f31i => byte (i.reg 0) :: spread 2 literal
  | .f31t => byte (i.reg 0) :: spread 2 i.offset.toInt
  | .f31c => byte (i.reg 0) :: spread 2 i.index.toNat
  | .f35c => [nibbles (i.reg 4) count, index, few]
  | .f45cc => [nibbles (i.reg 4) count, index, few, proto]
  | .f3rc => [byte count, index, i.reg 0]
  | .f4rcc => [byte count, index, i.reg 0, proto]
  | .f51l => byte (i.reg 0) :: spread 4 literal

@[simp] theorem length_units (i : Instruction) : i.units.length = i.size := by
  unfold units size
  rw [i.op.encoding_eq]
  cases i.op.format <;> rfl

end Instruction

/-! ## Bits -/

theorem toNat_emod_lt (bits : Nat) (n : Int) : (n % 2 ^ bits).toNat < 2 ^ bits := by
  have positive : (0 : Int) < 2 ^ bits := Int.pow_pos (by decide)
  rw [Int.toNat_lt (Int.emod_nonneg n (Int.ne_of_gt positive))]
  exact_mod_cast Int.emod_lt_of_pos n positive

theorem toNat_lowBits (bits : Nat) (fits : bits ≤ 16) (n : Int) :
    (lowBits bits n).toNat = (n % 2 ^ bits).toNat := by
  exact toNat_ofNat_of_lt'
    (lt_of_lt_of_le (toNat_emod_lt bits n) (Nat.pow_le_pow_right (by decide) fits))

theorem toNat_lowBits_lt (bits : Nat) (fits : bits ≤ 16) (n : Int) :
    (lowBits bits n).toNat < 2 ^ bits := by
  rw [toNat_lowBits bits fits]
  exact toNat_emod_lt bits n

theorem toInt_signedLow (small : w.toNat < 2 ^ 8) :
    (signedLow w).toInt = Int.bmod w.toNat (2 ^ 8) := by
  rw [signedLow, Int8.toInt_toInt64]
  change w.toUInt8.toBitVec.toInt = _
  rw [BitVec.toInt_eq_toNat_bmod, UInt8.toNat_toBitVec, toNat_toUInt8, Nat.mod_eq_of_lt small]

theorem toInt_signed16 (w : UInt16) : (signed16 w).toInt = Int.bmod w.toNat (2 ^ 16) := by
  rw [signed16, Int16.toInt_toInt64]
  change w.toBitVec.toInt = _
  rw [BitVec.toInt_eq_toNat_bmod, toNat_toBitVec]

theorem toInt_nibble (small : w.toNat < 16) :
    ((w <<< 4).toUInt8.toInt8 >>> 4).toInt64.toInt = Int.bmod w.toNat (2 ^ 4) := by
  have all : ∀ k : Fin 16,
      ((UInt16.ofNat k <<< 4).toUInt8.toInt8 >>> 4).toInt64.toInt = Int.bmod k (2 ^ 4) := by decide
  have here := all ⟨w.toNat, small⟩
  rwa [UInt16.ofNat_toNat] at here

theorem toInt_toInt64 (w : UInt64) : w.toInt64.toInt = Int.bmod w.toNat (2 ^ 64) := by
  change w.toBitVec.toInt = _
  rw [BitVec.toInt_eq_toNat_bmod, UInt64.toNat_toBitVec]

theorem toInt_toInt32 (w : UInt32) : w.toInt32.toInt = Int.bmod w.toNat (2 ^ 32) := by
  change w.toBitVec.toInt = _
  rw [BitVec.toInt_eq_toNat_bmod, UInt32.toNat_toBitVec]

theorem SignedIn.bmod_toNat {bits : Nat} (fits : SignedIn bits n) :
    Int.bmod (n % 2 ^ bits).toNat (2 ^ bits) = n := by
  obtain ⟨lower, upper⟩ := fits
  rw [Int.toNat_of_nonneg (Int.emod_nonneg n (Int.ne_of_gt (Int.pow_pos (by decide))))]
  have power : (2 : Int) ^ bits = (2 ^ bits : Nat) := by simp
  rw [power] at lower upper ⊢
  rw [Int.emod_bmod]
  exact Int.bmod_eq_of_le_mul_two (by omega) (by omega)

theorem toNat_pair (low high : UInt16) : (pair low high).toNat = low.toNat + 65536 * high.toNat := by
  have lowBound := low.toNat_lt
  have highBound := high.toNat_lt
  have shifted : (high.toUInt32 <<< 16).toNat = high.toNat <<< 16 := by
    rw [UInt32.toNat_shiftLeft, toNat_toUInt32]
    change high.toNat <<< 16 % 2 ^ 32 = _
    rw [Nat.shiftLeft_eq]
    omega
  rw [pair, UInt32.toNat_or, toNat_toUInt32, shifted, Nat.or_comm,
    ← Nat.shiftLeft_add_eq_or_of_lt lowBound, Nat.shiftLeft_eq]
  omega

theorem toNat_pair_lowBits (n : Int) :
    (pair (lowBits 16 n) (lowBits 16 (n / 2 ^ 16))).toNat = (n % 2 ^ 32).toNat := by
  rw [toNat_pair, toNat_lowBits _ (by decide), toNat_lowBits _ (by decide)]
  omega

theorem toNat_four (n : Int) :
    ((pair (lowBits 16 n) (lowBits 16 (n / 2 ^ 16))).toUInt64 |||
      (pair (lowBits 16 (n / 2 ^ 16 / 2 ^ 16)) (lowBits 16 (n / 2 ^ 16 / 2 ^ 16 / 2 ^ 16))).toUInt64
        <<< 32).toNat = (n % 2 ^ 64).toNat := by
  have low := toNat_pair_lowBits n
  have high := toNat_pair_lowBits (n / 2 ^ 16 / 2 ^ 16)
  generalize pair (lowBits 16 n) (lowBits 16 (n / 2 ^ 16)) = first at low ⊢
  generalize pair (lowBits 16 (n / 2 ^ 16 / 2 ^ 16))
    (lowBits 16 (n / 2 ^ 16 / 2 ^ 16 / 2 ^ 16)) = second at high ⊢
  have bound := second.toNat_lt
  have shifted : (second.toUInt64 <<< 32).toNat = second.toNat <<< 32 := by
    rw [UInt64.toNat_shiftLeft, UInt32.toNat_toUInt64]
    change second.toNat <<< 32 % 2 ^ 64 = _
    rw [Nat.shiftLeft_eq]
    omega
  rw [UInt64.toNat_or, UInt32.toNat_toUInt64, shifted, Nat.or_comm,
    ← Nat.shiftLeft_add_eq_or_of_lt first.toNat_lt, Nat.shiftLeft_eq]
  omega

theorem toInt_signed16_shift (fits : SignedIn 16 n) :
    (signed16 (lowBits 16 n) <<< 48).toInt = n * 2 ^ 48 := by
  have low : (signed16 (lowBits 16 n)).toInt = n := by
    rw [toInt_signed16, toNat_lowBits _ (by decide)]
    exact fits.bmod_toNat
  obtain ⟨_, _⟩ := fits
  generalize signed16 (lowBits 16 n) = x at low
  have shifted : (x <<< 48).toInt = Int.bmod (x.toBitVec.toNat <<< 48 : Nat) (2 ^ 64) := by
    rw [← Int64.toInt_toBitVec, Int64.toBitVec_shiftLeft]
    exact BitVec.toInt_shiftLeft
  have same : Int.bmod x.toBitVec.toNat (2 ^ 64) = n := by
    rw [← BitVec.toInt_eq_toNat_bmod]
    exact low
  rw [shifted, Nat.shiftLeft_eq]
  rw [Int.bmod] at same ⊢
  split at same <;> split <;> omega

theorem toInt_high16 (fits : SignedIn 16 n) :
    ((lowBits 16 n).toUInt32 <<< 16).toInt32.toInt64.toInt = n * 2 ^ 16 := by
  obtain ⟨_, _⟩ := fits
  have low := toNat_lowBits 16 (by decide) n
  have shifted : ((lowBits 16 n).toUInt32 <<< 16).toNat = (n % 2 ^ 16).toNat * 2 ^ 16 := by
    rw [UInt32.toNat_shiftLeft, toNat_toUInt32, low, Nat.shiftLeft_eq]
    simp only [UInt32.reduceToNat, Nat.reduceMod]
    omega
  rw [Int32.toInt_toInt64, toInt_toInt32, shifted, Int.bmod]
  split <;> omega

@[simp] theorem decodeOne_op (w : Nat → UInt16) (pc : UInt32) (op : Opcode) :
    (decodeOne w pc op).op = op := by
  unfold decodeOne
  dsimp only
  split <;> rfl

@[simp] theorem decodeOne_payload (w : Nat → UInt16) (pc : UInt32) (op : Opcode) :
    (decodeOne w pc op).payload = none := by
  unfold decodeOne
  dsimp only
  split <;> rfl

theorem decodeOne_congr {v w : Nat → UInt16} {pc : UInt32} {op : Opcode}
    (same : ∀ k < op.format.units, v k = w k) : decodeOne v pc op = decodeOne w pc op := by
  unfold decodeOne
  generalize op.format = format at same ⊢
  cases format <;> simp only [Format.units] at same ⊢
  all_goals simp [same]

namespace Instruction

variable {i : Instruction}

theorem toNat_opcodeUnit (byte : high.toNat < 256) :
    (i.opcodeUnit high).toNat = i.op.code.toNat + 256 * high.toNat := by
  have code := i.op.code.toNat_lt
  rw [opcodeUnit, UInt16.toNat_add, UInt16.toNat_mul, UInt8.toNat_toUInt16]
  change (i.op.code.toNat + 256 * high.toNat % 65536) % 65536 = _
  omega

theorem opcodeUnit_byte (byte : high.toNat < 256) : i.opcodeUnit high >>> 8 = high := by
  have code := i.op.code.toNat_lt
  rw [← UInt16.toNat_inj, UInt16.toNat_shiftRight, toNat_opcodeUnit byte]
  change _ >>> 8 = _
  rw [Nat.shiftRight_eq_div_pow]
  omega

section

variable (lowFits : low.toNat < 16) (highFits : high.toNat < 16)

include lowFits highFits

theorem toNat_nibbles : (low + 16 * high).toNat = low.toNat + 16 * high.toNat := by
  rw [UInt16.toNat_add, UInt16.toNat_mul]
  change (low.toNat + 16 * high.toNat % 65536) % 65536 = _
  omega

theorem opcodeUnit_low : i.opcodeUnit (low + 16 * high) >>> 8 &&& 0xf = low := by
  have sum := toNat_nibbles lowFits highFits
  rw [opcodeUnit_byte (by omega), ← UInt16.toNat_inj, UInt16.toNat_and, sum]
  change _ &&& 2 ^ 4 - 1 = _
  rw [Nat.and_two_pow_sub_one_eq_mod]
  omega

theorem opcodeUnit_high : i.opcodeUnit (low + 16 * high) >>> 12 = high := by
  have code := i.op.code.toNat_lt
  have sum := toNat_nibbles lowFits highFits
  rw [← UInt16.toNat_inj, UInt16.toNat_shiftRight, toNat_opcodeUnit (by omega), sum]
  change _ >>> 12 = _
  rw [Nat.shiftRight_eq_div_pow]
  omega

end

section

variable (lowFits : low.toNat < 256) (highFits : high.toNat < 256)

include lowFits highFits

theorem toNat_bytes : (low + 256 * high).toNat = low.toNat + 256 * high.toNat := by
  rw [UInt16.toNat_add, UInt16.toNat_mul]
  change (low.toNat + 256 * high.toNat % 65536) % 65536 = _
  omega

theorem bytes_low : (low + 256 * high) &&& 0xff = low := by
  rw [← UInt16.toNat_inj, UInt16.toNat_and, toNat_bytes lowFits highFits]
  change _ &&& 2 ^ 8 - 1 = _
  rw [Nat.and_two_pow_sub_one_eq_mod]
  omega

theorem bytes_high : (low + 256 * high) >>> 8 = high := by
  rw [← UInt16.toNat_inj, UInt16.toNat_shiftRight, toNat_bytes lowFits highFits]
  change _ >>> 8 = _
  rw [Nat.shiftRight_eq_div_pow]
  omega

end

theorem toNat_few {a b c d : UInt16} (aFits : a.toNat < 16) (bFits : b.toNat < 16)
    (cFits : c.toNat < 16) (dFits : d.toNat < 16) :
    (a + 16 * b + 256 * c + 4096 * d).toNat =
      a.toNat + 16 * b.toNat + 256 * c.toNat + 4096 * d.toNat := by
  simp only [UInt16.toNat_add, UInt16.toNat_mul]
  change (((a.toNat + 16 * b.toNat % 65536) % 65536 + 256 * c.toNat % 65536) % 65536 +
    4096 * d.toNat % 65536) % 65536 = _
  omega

theorem few_read {a b c d : UInt16} (aFits : a.toNat < 16) (bFits : b.toNat < 16)
    (cFits : c.toNat < 16) (dFits : d.toNat < 16) :
    (a + 16 * b + 256 * c + 4096 * d) &&& 0xf = a ∧
      (a + 16 * b + 256 * c + 4096 * d) >>> 4 &&& 0xf = b ∧
      (a + 16 * b + 256 * c + 4096 * d) >>> 8 &&& 0xf = c ∧
      (a + 16 * b + 256 * c + 4096 * d) >>> 12 = d := by
  have sum := toNat_few aFits bFits cFits dFits
  simp only [← UInt16.toNat_inj, UInt16.toNat_and, UInt16.toNat_shiftRight, sum]
  change _ &&& 2 ^ 4 - 1 = _ ∧ _ >>> 4 &&& 2 ^ 4 - 1 = _ ∧ _ >>> 8 &&& 2 ^ 4 - 1 = _ ∧ _ >>> 12 = _
  simp only [Nat.and_two_pow_sub_one_eq_mod, Nat.shiftRight_eq_div_pow]
  omega

theorem take_padded (few : regs.length ≤ 5) :
    [regs.getD 0 0, regs.getD 1 0, regs.getD 2 0, regs.getD 3 0, regs.getD 4 0].take regs.length =
      regs := by
  match regs, few with
  | [], _ | [_], _ | [_, _], _ | [_, _, _], _ | [_, _, _, _], _ | [_, _, _, _, _], _ => rfl

def word (i : Instruction) (k : Nat) : UInt16 := i.units.getD k 0

theorem getD_fits (fits : ∀ r ∈ regs, r.toNat < 16) (k : Nat) : (regs.getD k 0).toNat < 16 := by
  rw [getD_eq_getElem?_getD]
  cases present : regs[k]? with
  | none => decide
  | some r => exact fits r (mem_of_getElem? present)

theorem regs_few (few : regs.length ≤ 5) (fits : ∀ r ∈ regs, r.toNat < 16) :
    let first := i.opcodeUnit (regs.getD 4 0 + 16 * ofNat regs.length)
    let third := regs.getD 0 0 + 16 * regs.getD 1 0 + 256 * regs.getD 2 0 + 4096 * regs.getD 3 0
    [third &&& 0xf, third >>> 4 &&& 0xf, third >>> 8 &&& 0xf, third >>> 12,
      first >>> 8 &&& 0xf].take (first >>> 12).toNat = regs := by
  dsimp only
  have count : (ofNat regs.length).toNat = regs.length :=
    toNat_ofNat_of_lt' (lt_of_le_of_lt few (by decide))
  have last := getD_fits fits 4
  obtain ⟨one, two, three, four⟩ :=
    few_read (getD_fits fits 0) (getD_fits fits 1) (getD_fits fits 2) (getD_fits fits 3)
  rw [one, two, three, four, opcodeUnit_low last (by omega), opcodeUnit_high last (by omega), count]
  exact take_padded few

theorem regs_range (short : regs.length < 256) {first : Nat}
    (neighbours : regs.map toNat = range' first regs.length) :
    (range (i.opcodeUnit (ofNat regs.length) >>> 8).toNat).map
      (fun k => regs.getD 0 0 + UInt16.ofNat k) = regs := by
  have count : (ofNat regs.length).toNat = regs.length :=
    toNat_ofNat_of_lt' (lt_trans short (by decide))
  rw [opcodeUnit_byte (by omega), count]
  have at_ : ∀ k (inside : k < regs.length), regs[k].toNat = first + k := by
    intro k inside
    have := getElem_of_eq neighbours (i := k) (by simpa using inside)
    simpa using this
  refine ext_getElem (by simp) fun k _ inside => ?_
  have zero := at_ 0 (by omega)
  have here := at_ k inside
  have bound := regs[k].toNat_lt
  rw [getElem_map, getElem_range, getD_eq_getElem?_getD,
    getElem?_eq_getElem (by omega), Option.getD_some, ← UInt16.toNat_inj, UInt16.toNat_add, UInt16.toNat_ofNat', zero, here]
  omega

section

variable (is : i.op.format = format)

include is

theorem regs_decodeOne (named : format.Names i.regs) :
    (decodeOne i.word i.addr i.op).regs = i.regs := by
  unfold decodeOne word units reg
  rw [i.op.encoding_eq, is]
  generalize i.regs = regs at named ⊢
  cases format <;> simp only [getD_cons_zero, getD_cons_succ]
  case f35c | f45cc => exact regs_few named.1 named.2
  case f3rc | f4rcc =>
    exact regs_range named.1 named.2
  case f10x | f10t | f20t | f30t =>
    cases named
    rfl
  case f11x | f21t | f21s | f21h | f21c | f31i | f31t | f31c | f51l =>
    obtain _ | ⟨a, ⟨⟩⟩ := named
    exact congrArg (fun x => [x]) (opcodeUnit_byte a)
  case f11n =>
    obtain _ | ⟨a, ⟨⟩⟩ := named
    exact congrArg (fun x => [x]) (opcodeUnit_low a (toNat_lowBits_lt _ (by decide) _))
  case f12x | f22t | f22s | f22c =>
    obtain _ | ⟨a, _ | ⟨b, ⟨⟩⟩⟩ := named
    exact congrArg₂ (fun x y => [x, y]) (opcodeUnit_low a b) (opcodeUnit_high a b)
  case f22x =>
    obtain _ | ⟨a, _ | ⟨b, ⟨⟩⟩⟩ := named
    exact congrArg (fun x => [x, _]) (opcodeUnit_byte a)
  case f23x =>
    obtain _ | ⟨a, _ | ⟨b, _ | ⟨c, ⟨⟩⟩⟩⟩ := named
    exact congrArg₂ (fun x y => [x] ++ y) (opcodeUnit_byte a)
      (congrArg₂ (fun x y => [x, y]) (bytes_low b c) (bytes_high b c))
  case f22b =>
    obtain _ | ⟨a, _ | ⟨b, ⟨⟩⟩⟩ := named
    exact congrArg₂ (fun x y => [x, y]) (opcodeUnit_byte a) (bytes_low b (toNat_lowBits_lt _ (by decide) _))
  case f32x =>
    obtain _ | ⟨a, _ | ⟨b, ⟨⟩⟩⟩ := named
    rfl

theorem lit_decodeOne (named : format.Names i.regs)
    (fits : SignedIn format.literalBits (i.lit.toInt / 2 ^ i.literalShift))
    (zeros : i.lit.toInt % 2 ^ i.literalShift = 0) :
    (decodeOne i.word i.addr i.op).lit = i.lit := by
  have value := (Int.ediv_mul_cancel_of_emod_eq_zero zeros).symm
  rw [← Int64.toInt_inj]
  unfold decodeOne word units reg
  generalize i.lit.toInt / 2 ^ i.literalShift = n at fits value ⊢
  rw [value]
  unfold literalShift
  rw [i.op.encoding_eq, is]
  generalize i.regs = regs at named ⊢
  cases format <;> simp only [getD_cons_zero, getD_cons_succ, reduceIte, reduceCtorEq,
    spread, Int.pow_zero, Int.mul_one]
  case f11n =>
    obtain _ | ⟨a, ⟨⟩⟩ := named
    have small := toNat_lowBits_lt 4 (by decide) n
    rw [getD_cons_zero, opcodeUnit_high a small, toInt_nibble small, toNat_lowBits _ (by decide)]
    exact fits.bmod_toNat
  case f22b =>
    obtain _ | ⟨a, _ | ⟨b, ⟨⟩⟩⟩ := named
    have small := toNat_lowBits_lt 8 (by decide) n
    rw [getD_cons_succ, getD_cons_zero, bytes_high b small, toInt_signedLow small,
      toNat_lowBits _ (by decide)]
    exact fits.bmod_toNat
  case f21s | f22s =>
    rw [toInt_signed16, toNat_lowBits _ (by decide)]
    exact fits.bmod_toNat
  case f21h =>
    split
    · have moved := toInt_signed16_shift fits
      rw [moved]
    · exact toInt_high16 fits
  case f31i =>
    rw [Int32.toInt_toInt64, toInt_toInt32, toNat_pair_lowBits]
    exact fits.bmod_toNat
  case f51l =>
    rw [toInt_toInt64, toNat_four]
    exact fits.bmod_toNat
  all_goals
    obtain ⟨lower, upper⟩ := fits
    change (0 : Int) = n
    simp only [Format.literalBits] at lower upper
    omega

theorem index_decodeOne (fits : i.index.toNat < 2 ^ format.indexBits) :
    (decodeOne i.word i.addr i.op).index = i.index := by
  rw [← UInt32.toNat_inj]
  unfold decodeOne word units
  rw [i.op.encoding_eq, is]
  cases format <;> simp only [getD_cons_zero, getD_cons_succ, spread]
  case f21c | f22c | f35c | f3rc | f45cc | f4rcc =>
    rw [toNat_toUInt32, toNat_lowBits _ (by decide)]
    change _ < 65536 at fits
    omega
  case f31c =>
    rw [toNat_pair_lowBits]
    have bound := i.index.toNat_lt
    omega
  all_goals
    change _ < 1 at fits
    change 0 = _
    omega

theorem proto_decodeOne (fits : i.proto.toNat < 2 ^ format.protoBits) :
    (decodeOne i.word i.addr i.op).proto = i.proto := by
  rw [← UInt32.toNat_inj]
  unfold decodeOne word units
  rw [i.op.encoding_eq, is]
  cases format <;> simp only [getD_cons_zero, getD_cons_succ]
  case f45cc | f4rcc =>
    rw [toNat_toUInt32, toNat_lowBits _ (by decide)]
    change _ < 65536 at fits
    omega
  all_goals
    change _ < 1 at fits
    change 0 = _
    omega

end

theorem addr_add_offset (i : Instruction) : i.addr + i.offset.toUInt32 = i.target := by
  change i.addr + (i.target - i.addr) = i.target
  rw [UInt32.add_comm, UInt32.sub_add_cancel]

theorem addr_add_signed {distance : Int64} (same : distance.toInt = i.offset.toInt) :
    i.addr + distance.toInt32.toUInt32 = i.target := by
  have back : distance.toInt32 = i.offset := by
    rw [← Int32.toInt_inj, Int64.toInt_toInt32, same]
    exact Int.bmod_eq_of_le_mul_two (by have := i.offset.le_toInt; omega)
      (by have := i.offset.toInt_lt; omega)
  rw [back, addr_add_offset]

theorem addr_add_pair (i : Instruction) :
    i.addr + pair (lowBits 16 i.offset.toInt) (lowBits 16 (i.offset.toInt / 2 ^ 16)) =
      i.target := by
  have same : pair (lowBits 16 i.offset.toInt) (lowBits 16 (i.offset.toInt / 2 ^ 16)) =
      i.offset.toUInt32 := by
    rw [← UInt32.toNat_inj, toNat_pair_lowBits, offset, toInt_toInt32]
    change (Int.bmod _ (2 ^ 32) % (2 ^ 32 : Nat)).toNat = (i.target - i.addr).toNat
    rw [Int.bmod_emod]
    have bound := (i.target - i.addr).toNat_lt
    omega
  rw [same, addr_add_offset]

theorem target_decodeOne (is : i.op.format = format)
    (fits : if format.offsetBits = 0 then i.target = 0
      else SignedIn format.offsetBits i.offset.toInt) :
    (decodeOne i.word i.addr i.op).target = i.target := by
  unfold decodeOne word units
  rw [i.op.encoding_eq, is]
  cases format <;> simp only [getD_cons_zero, getD_cons_succ, spread]
  case f10t =>
    have small := toNat_lowBits_lt 8 (by decide) i.offset.toInt
    rw [opcodeUnit_byte small]
    refine addr_add_signed ?_
    rw [toInt_signedLow small, toNat_lowBits _ (by decide)]
    exact SignedIn.bmod_toNat fits
  case f20t | f21t | f22t =>
    refine addr_add_signed ?_
    rw [toInt_signed16, toNat_lowBits _ (by decide)]
    exact SignedIn.bmod_toNat fits
  case f30t | f31t => exact addr_add_pair i
  all_goals exact fits.symm

/-- An instruction whose operands are in range is read back from its units, but for its table. -/
theorem decodeOne_word (is : i.op.format = format) (fits : FitsIn format i) :
    decodeOne i.word i.addr i.op = { i with payload := none } := by
  have regs := regs_decodeOne is fits.registers
  have lit := lit_decodeOne is fits.registers fits.literal fits.zeros
  have index := index_decodeOne is fits.index
  have proto := proto_decodeOne is fits.proto
  have target := target_decodeOne is fits.target
  have addr := decodeOne_addr i.word i.addr i.op
  have op := decodeOne_op i.word i.addr i.op
  have payload := decodeOne_payload i.word i.addr i.op
  generalize decodeOne i.word i.addr i.op = decoded at regs lit index proto target addr op payload ⊢
  cases decoded
  dsimp only at regs lit index proto target addr op payload
  rw [regs, lit, index, proto, target, addr, op, payload]

end Instruction

/-! ## Tables in the code -/

open Outcome (ok_bind mapM_of_ok)

/-- A table between or after the instructions. -/
inductive Table where
  /-- Distances for neighbouring keys from a first one on. -/
  | packed (first : Int32) (offsets : List Int32)
  /-- Keys and their distances. -/
  | sparse (entries : List (Int32 × Int32))
  /-- Array contents: the width of an element in bytes and the elements. -/
  | array (width : Nat) (values : List Int64)

namespace Table

/-- The opcode whose instructions point at a table of this kind. -/
def user : Table → UInt8
  | packed .. => 0x2b
  | sparse .. => 0x2c
  | array .. => 0x26

/-- What an instruction at an address finds in a table. -/
def payload (addr : UInt32) : Table → Payload
  | packed first offsets =>
    .branches ((range offsets.length).map fun k => first + Int32.ofNat k)
      (offsets.map fun offset => addr + offset.toUInt32)
  | sparse entries =>
    .branches (entries.map Prod.fst) (entries.map fun entry => addr + entry.2.toUInt32)
  | array width values => .elements width values

/-- The sizes of a table are in the range of their places, and array elements fit their width. -/
def Fits : Table → Prop
  | packed _ offsets => offsets.length < 2 ^ 16
  | sparse entries => entries.length < 2 ^ 16
  | array width values =>
    width < 2 ^ 16 ∧ values.length < 2 ^ 32 ∧ width * values.length + 1 < 2 ^ 32 ∧
      ∀ v ∈ values, SignedIn (8 * width) v.toInt

-- The elements are gone through; searching an instance could go through all numbers instead.
instance (t : Table) : Decidable t.Fits :=
  match t with
  | packed _ _ => inferInstanceAs (Decidable (_ < _))
  | sparse _ => inferInstanceAs (Decidable (_ < _))
  | array width values =>
    have := List.decidableBAll (fun v : Int64 => SignedIn (8 * width) v.toInt) values
    inferInstanceAs (Decidable (_ ∧ _ ∧ _ ∧ _))

/-- Array contents have elements as wide as those of a primitive type. -/
def IsPlain : Table → Prop
  | array width _ => width ∈ [1, 2, 4, 8]
  | _ => True

/-- A number in bytes, the lowest one first. -/
def littleEndian : Nat → Int → List UInt8
  | 0, _ => []
  | count + 1, n => UInt8.ofNat (n % 2 ^ 8).toNat :: littleEndian count (n / 2 ^ 8)

/-- Bytes two by two in units; the last unit is filled up with zero. -/
def paired : List UInt8 → List UInt16
  | low :: high :: rest => (low.toUInt16 + 256 * high.toUInt16) :: paired rest
  | [low] => [low.toUInt16]
  | [] => []

def units : Table → List UInt16
  | packed first offsets =>
    0x0100 :: UInt16.ofNat offsets.length :: (spread 2 first.toInt ++
      offsets.flatMap fun offset => spread 2 offset.toInt)
  | sparse entries =>
    0x0200 :: UInt16.ofNat entries.length ::
      ((entries.map Prod.fst ++ entries.map Prod.snd).flatMap fun n => spread 2 n.toInt)
  | array width values =>
    0x0300 :: UInt16.ofNat width :: (spread 2 values.length ++
      paired (values.flatMap fun v => littleEndian width v.toInt))

end Table

theorem map_getD_range {α : Type} (xs : List α) (default : α) :
    ((range xs.length).map fun k => xs.getD k default) = xs := by
  refine ext_getElem (by simp) fun k _ inside => ?_
  rw [getElem_map, getElem_range, getD_eq_getElem?_getD,
    getElem?_eq_getElem inside, Option.getD_some]

/-! ## Units at a position -/

def StandsAt (units : Array UInt16) (p : Nat) (ws : List UInt16) : Prop :=
  ∀ k w, ws[k]? = some w → units[p + k]? = some w

namespace StandsAt

variable {units : Array UInt16} {p : Nat} {w : UInt16} {ws vs : List UInt16}

theorem behind (stands : StandsAt units p (ws ++ vs)) : StandsAt units (p + ws.length) vs := by
  intro k v here
  rw [Nat.add_assoc]
  refine stands _ v ?_
  rw [getElem?_append_right (Nat.le_add_right _ _), Nat.add_sub_cancel_left, here]

theorem front (stands : StandsAt units p (ws ++ vs)) : StandsAt units p ws := by
  intro k v here
  refine stands k v ?_
  rw [getElem?_append_left (List.getElem?_eq_some_iff.mp here).1, here]

section

variable (stands : StandsAt units p (w :: ws))

include stands

theorem tail : StandsAt units (p + 1) ws := by
  have whole : StandsAt units p ([w] ++ ws) := stands
  exact whole.behind

theorem unitAt_eq : unitAt units p = .ok w := by
  have here : units[p]? = some w := stands 0 w rfl
  rw [unitAt, here]
  rfl

theorem getD_eq : units.getD p 0 = w := by
  have here : units[p]? = some w := stands 0 w rfl
  rw [Array.getD_eq_getD_getElem?, here, Option.getD_some]

end

theorem inside (stands : StandsAt units p ws) (some : ws ≠ []) : p + ws.length ≤ units.size := by
  have last := getElem?_eq_getElem (l := ws) (i := ws.length - 1)
    (Nat.sub_lt (length_pos_iff.mpr some) Nat.one_pos)
  have here := (Array.getElem?_eq_some_iff.mp (stands _ _ last)).1
  have := length_pos_iff.mpr some
  omega

theorem pairAt_eq {x : Int32} (stands : StandsAt units p (spread 2 x.toInt ++ ws)) :
    pairAt units p = .ok x.toUInt32 := by
  have low := stands.unitAt_eq
  have high := stands.tail.unitAt_eq
  rw [pairAt, low, high]
  refine congrArg Except.ok ?_
  rw [← UInt32.toNat_inj, toNat_pair_lowBits]
  change (x.toUInt32.toInt32.toInt % (2 ^ 32 : Nat)).toNat = _
  rw [toInt_toInt32, Int.bmod_emod]
  have bound := x.toUInt32.toNat_lt
  omega

section

variable (stands : StandsAt units p (xs.flatMap fun x => spread 2 x.toInt))

include stands

theorem pairs (inside : k < xs.length) : pairAt units (p + 2 * k) = .ok xs[k].toUInt32 := by
  induction xs generalizing p k with
  | nil => exact absurd inside (Nat.not_lt_zero k)
  | cons x rest ih =>
    rw [flatMap_cons] at stands
    cases k with
    | zero => exact stands.pairAt_eq
    | succ k =>
      have further := ih stands.behind (Nat.lt_of_succ_lt_succ inside)
      rw [show p + 2 * (k + 1) = p + (spread 2 x.toInt).length + 2 * k by simp [spread]; omega]
      exact further

theorem mapM_pairs {β : Type}
    (use : UInt32 → β) :
    (range xs.length).mapM (fun k => return use (← pairAt units (p + 2 * k))) =
      (.ok (xs.map fun x => use x.toUInt32) : Outcome (List β)) := by
  have each : ∀ k ∈ range xs.length,
      (return use (← pairAt units (p + 2 * k)) : Outcome β) = .ok (use (xs.getD k 0).toUInt32) := by
    intro k listed
    have inside := mem_range.mp listed
    rw [stands.pairs inside, getD_eq_getElem?_getD, getElem?_eq_getElem inside]
    rfl
  have whole := congrArg (map fun x : Int32 => use x.toUInt32) (map_getD_range xs 0)
  rw [map_map] at whole
  rw [mapM_of_ok each]
  exact congrArg Except.ok whole

end

end StandsAt

/-! ## Switch tables -/

@[simp] theorem length_spread (count : Nat) (n : Int) : (spread count n).length = count := by
  induction count generalizing n with
  | zero => rfl
  | succ count ih => rw [spread, length_cons, ih]

theorem length_pairs (xs : List Int32) :
    (xs.flatMap fun x => spread 2 x.toInt).length = 2 * xs.length := by
  induction xs with
  | nil => rfl
  | cons x rest ih =>
    rw [flatMap_cons, length_append, ih, length_spread, length_cons]
    omega

theorem length_paired (bytes : List UInt8) :
    (Table.paired bytes).length = (bytes.length + 1) / 2 := by
  fun_induction Table.paired bytes with
  | case1 low high rest ih =>
    rw [length_cons, ih, length_cons, length_cons]
    omega
  | case2 low => simp
  | case3 => rfl

@[simp] theorem length_littleEndian (count : Nat) (n : Int) :
    (Table.littleEndian count n).length = count := by
  induction count generalizing n with
  | zero => rfl
  | succ count ih =>
    rw [Table.littleEndian, length_cons, ih]

theorem length_elements (width : Nat) (values : List Int64) :
    (values.flatMap fun v => Table.littleEndian width v.toInt).length = width * values.length := by
  induction values with
  | nil => rfl
  | cons v rest ih =>
    rw [flatMap_cons, length_append, ih, length_littleEndian, length_cons, Nat.mul_succ]
    omega

namespace Table

variable {units : Array UInt16} {p : Nat}

theorem length_units (t : Table) : t.units.length =
    match t with
    | packed _ offsets => offsets.length * 2 + 4
    | sparse entries => entries.length * 4 + 2
    | array width values => (width * values.length + 1) / 2 + 4 := by
  cases t with
  | packed first offsets =>
    simp only [Table.units, length_cons, length_append, length_spread, length_pairs]
    omega
  | sparse entries =>
    simp only [Table.units, length_cons, length_pairs, length_append, length_map]
    omega
  | array width values =>
    simp only [Table.units, length_cons, length_append, length_spread, length_paired,
      length_elements]
    omega

theorem toNat_count {n : Nat} (short : n < 2 ^ 16) : (ofNat n).toNat = n :=
  toNat_ofNat_of_lt' short

theorem toNat_pair_count {n : Nat} (short : n < 2 ^ 32) :
    (pair (lowBits 16 n) (lowBits 16 (n / 2 ^ 16))).toNat = n := by
  rw [toNat_pair_lowBits]
  omega

theorem payloadSize?_eq {t : Table} (fits : t.Fits) (stands : StandsAt units p t.units) :
    payloadSize? units p = some t.units.length := by
  have inside : p + t.units.length ≤ units.size := stands.inside (by cases t <;> simp [Table.units])
  rw [length_units] at inside ⊢
  cases t with
  | packed first offsets =>
    have mark : units.getD p 0 = packedMark := stands.getD_eq
    have count := stands.tail.getD_eq
    dsimp only at inside ⊢
    rw [payloadSize?, mark, count, toNat_count fits, if_pos rfl, if_neg (by omega)]
  | sparse entries =>
    have mark : units.getD p 0 = sparseMark := stands.getD_eq
    have count := stands.tail.getD_eq
    dsimp only at inside ⊢
    rw [payloadSize?, mark, count, toNat_count fits, if_neg (by decide), if_pos rfl,
      if_neg (by omega)]
  | array width values =>
    obtain ⟨wideFits, few, bound, -⟩ := fits
    have mark : units.getD p 0 = arrayMark := stands.getD_eq
    have wide := stands.tail.getD_eq
    have low := stands.tail.tail.getD_eq
    have high := stands.tail.tail.tail.getD_eq
    have count : (pair (lowBits 16 values.length) (lowBits 16 (values.length / 2 ^ 16))).toNat =
        values.length := toNat_pair_count few
    dsimp only at inside ⊢
    rw [payloadSize?, mark, wide, toNat_count wideFits, if_neg (by decide),
      if_neg (by decide), if_pos rfl, low, high, count]
    dsimp only
    have small : width * values.length + 1 < 4294967296 := Nat.lt_of_lt_of_eq bound (by decide)
    rw [if_neg (by omega), Nat.mod_eq_of_lt small]

theorem readBranches_packed {first : Int32} {offsets : List Int32}
    (fits : (packed first offsets).Fits) (stands : StandsAt units p (packed first offsets).units) :
    readBranches units i true p = .ok ((packed first offsets).payload i.addr) := by
  have inside := stands.inside (by simp [Table.units])
  have size := payloadSize?_eq fits stands
  have mark : unitAt units p = .ok packedMark := stands.unitAt_eq
  have count := stands.tail.unitAt_eq
  have start := stands.tail.tail.pairAt_eq
  have targets := stands.tail.tail.behind.mapM_pairs fun x => i.addr + x
  rw [length_spread] at targets
  unfold readBranches
  rw [size, mark, ok_bind, if_neg (by simpa using inside), count, ok_bind, toNat_count fits,
    if_pos rfl, start, ok_bind]
  dsimp only
  rw [targets]
  rfl

theorem readBranches_sparse {entries : List (Int32 × Int32)} (fits : (sparse entries).Fits)
    (stands : StandsAt units p (sparse entries).units) :
    readBranches units i false p = .ok ((sparse entries).payload i.addr) := by
  have inside := stands.inside (by simp [Table.units])
  have size := payloadSize?_eq fits stands
  have mark : unitAt units p = .ok sparseMark := stands.unitAt_eq
  have count := stands.tail.unitAt_eq
  have both := stands.tail.tail
  rw [flatMap_append] at both
  have keys := both.front.mapM_pairs UInt32.toInt32
  have targets := both.behind.mapM_pairs fun x => i.addr + x
  rw [length_map] at keys targets
  rw [length_pairs, length_map] at targets
  unfold readBranches
  rw [size, mark, ok_bind, if_neg (by simpa using inside), count, ok_bind, toNat_count fits,
    if_neg (by decide)]
  rw [keys, ok_bind, targets, map_map, map_map]
  rfl

theorem pair_low (low high : UInt8) : (low.toUInt16 + 256 * high.toUInt16).toUInt8 = low := by
  have lowFits : low.toUInt16.toNat < 256 := low.toNat_lt
  have highFits : high.toUInt16.toNat < 256 := high.toNat_lt
  rw [← UInt8.toNat_inj, toNat_toUInt8, Instruction.toNat_bytes lowFits highFits,
    ← UInt8.toNat_toUInt16]
  omega

theorem pair_high (low high : UInt8) :
    ((low.toUInt16 + 256 * high.toUInt16) >>> 8).toUInt8 = high := by
  have lowFits : low.toUInt16.toNat < 256 := low.toNat_lt
  have highFits : high.toUInt16.toNat < 256 := high.toNat_lt
  rw [Instruction.bytes_high lowFits highFits, UInt8.toUInt8_toUInt16]

theorem elementByte_eq {bytes : List UInt8} (stands : StandsAt units p (paired bytes)) {b : UInt8}
    (here : bytes[k]? = some b) : elementByte units p k = .ok b := by
  fun_induction paired bytes generalizing p k with
  | case1 low high rest ih =>
    match k with
    | 0 =>
      obtain rfl : low = b := by simpa using here
      rw [elementByte, Nat.zero_div, Nat.add_zero, stands.unitAt_eq]
      exact congrArg Except.ok (pair_low low high)
    | 1 =>
      obtain rfl : high = b := by simpa using here
      rw [elementByte, Nat.div_eq_of_lt (by decide), Nat.add_zero, stands.unitAt_eq]
      exact congrArg Except.ok (pair_high low high)
    | k + 2 =>
      have further := ih stands.tail (k := k) (by simpa using here)
      rw [elementByte] at further ⊢
      rwa [show p + (k + 2) / 2 = p + 1 + k / 2 by omega, Nat.add_mod_right]
  | case2 low =>
    obtain ⟨rfl, rfl⟩ : k = 0 ∧ low = b := by
      cases k with
      | zero => simpa using here
      | succ k => simp at here
    rw [elementByte, Nat.zero_div, Nat.add_zero, stands.unitAt_eq]
    exact congrArg Except.ok (UInt8.toUInt8_toUInt16 low)
  | case3 => simp at here

theorem getElem?_elements {b : Nat} (small : b < width) :
    (values.flatMap fun v => littleEndian width v.toInt)[k * width + b]? =
      values[k]?.bind fun v => (littleEndian width v.toInt)[b]? := by
  induction values generalizing k with
  | nil => rfl
  | cons v rest ih =>
    rw [flatMap_cons]
    cases k with
    | zero =>
      rw [Nat.zero_mul, Nat.zero_add, getElem?_append_left (by simpa using small)]
      rfl
    | succ k =>
      rw [getElem?_append_right (by rw [length_littleEndian, Nat.succ_mul]; omega),
        length_littleEndian, Nat.succ_mul,
        show k * width + width + b - width = k * width + b by omega, ih]
      rfl

theorem mapM_elementByte {v : Int64}
    (stands : StandsAt units p (paired (values.flatMap fun v => littleEndian width v.toInt)))
    (here : values[k]? = some v) :
    (range width).mapM (fun b => elementByte units p (k * width + b)) =
      (.ok (littleEndian width v.toInt) : Outcome (List UInt8)) := by
  have read : ∀ b ∈ range width, elementByte units p (k * width + b) =
      .ok ((littleEndian width v.toInt).getD b 0) := by
    intro b listed
    have small := mem_range.mp listed
    refine elementByte_eq stands ?_
    rw [getElem?_elements small, here, Option.bind_some, getD_eq_getElem?_getD,
      getElem?_eq_getElem (by simpa using small), Option.getD_some]
  have whole := map_getD_range (littleEndian width v.toInt) 0
  rw [length_littleEndian] at whole
  rw [mapM_of_ok read, whole]

theorem foldr_littleEndian (count : Nat) (n : Int) :
    (littleEndian count n).foldr (fun b rest => b.toNat + 256 * rest) 0 =
      (n % 2 ^ (8 * count)).toNat := by
  induction count generalizing n with
  | zero => simp [littleEndian]
  | succ count ih =>
    have positive : (0 : Int) < 2 ^ (8 * count) := Int.pow_pos (by decide)
    have power : (2 : Int) ^ (8 * (count + 1)) = 256 * 2 ^ (8 * count) := by
      rw [Nat.mul_succ, Int.pow_add, Int.mul_comm]
      rfl
    have whole : n % 256 + 256 * (n / 256 % 2 ^ (8 * count)) +
        256 * 2 ^ (8 * count) * (n / 256 / 2 ^ (8 * count)) = n := by
      rw [Int.mul_assoc, Int.add_assoc, ← Int.mul_add, Int.emod_add_mul_ediv, Int.emod_add_mul_ediv]
    have lower := Int.emod_nonneg (n / 256) (Int.ne_of_gt positive)
    have upper := Int.emod_lt_of_pos (n / 256) positive
    have remainder := ((Int.ediv_emod_unique (by omega)).mpr ⟨whole, by omega, by omega⟩).2
    have byte : (UInt8.ofNat (n % 2 ^ 8).toNat).toNat = (n % 256).toNat :=
      UInt8.toNat_ofNat_of_lt' (toNat_emod_lt 8 n)
    rw [littleEndian, foldr_cons, ih, power, remainder, byte]
    change _ + 256 * (n / 256 % 2 ^ (8 * count)).toNat = _
    omega

theorem signExtended_littleEndian {v : Int64} (fits : SignedIn (8 * width) v.toInt) :
    signExtended width (littleEndian width v.toInt) = v := by
  rw [signExtended, foldr_littleEndian, Nat.one_shiftLeft, fits.bmod_toNat, Int64.ofInt_toInt]

theorem readElements_array (fits : (array width values).Fits) (plain : width ∈ [1, 2, 4, 8])
    (stands : StandsAt units p (array width values).units) :
    readElements units i p = .ok ((array width values).payload i.addr) := by
  have inside := stands.inside (by simp [Table.units])
  have size := payloadSize?_eq fits stands
  have mark : unitAt units p = .ok arrayMark := stands.unitAt_eq
  have wide := stands.tail.unitAt_eq
  have low := stands.tail.tail.unitAt_eq
  have high := stands.tail.tail.tail.unitAt_eq
  have bytes : StandsAt units (p + 4)
      (paired (values.flatMap fun v => littleEndian width v.toInt)) := stands.tail.tail.behind
  obtain ⟨wideFits, few, bound, each⟩ := id fits
  have count : (pair (lowBits 16 values.length) (lowBits 16 (values.length / 2 ^ 16))).toNat =
      values.length := toNat_pair_count few
  have counted : pairAt units (p + 2) =
      .ok (pair (lowBits 16 values.length) (lowBits 16 (values.length / 2 ^ 16))) := by
    rw [pairAt, low, ok_bind, high]
    rfl
  have element : ∀ k ∈ range values.length, ((range width).mapM
      (fun b => elementByte units (p + 4) (k * width + b)) >>= fun bytes =>
        (return signExtended width bytes : Outcome Int64)) = .ok (values.getD k 0) := by
    intro k listed
    have present := getElem?_eq_getElem (mem_range.mp listed)
    rw [mapM_elementByte bytes present, ok_bind,
      signExtended_littleEndian (each _ (mem_of_getElem? present)),
      getD_eq_getElem?_getD, present]
    rfl
  unfold readElements
  rw [size, mark, ok_bind, if_neg (by simpa using inside), wide, ok_bind,
    toNat_count wideFits, counted, ok_bind, count]
  dsimp only
  rw [if_neg (by simp only [mem_cons, not_mem_nil, or_false] at plain; omega), if_neg (by rw [length_units] at inside; dsimp only at inside; omega),
    mapM_of_ok element, ok_bind, map_getD_range]
  rfl

end Table

end DexLift.Dex
