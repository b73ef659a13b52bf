import DexLift.Dex.Mutf8
import Mathlib.Algebra.Group.Nat.Defs
import Mathlib.Data.List.Basic
import Mathlib.Logic.Basic

/-!
# Modified UTF-8 read back

Each unit is read as it was written, and the units of a code point are put
together again. So a text that is written as modified UTF-8 and read back is the
text with its broken bytes replaced, which for UTF-8 is the text itself.
-/

namespace DexLift

open List UInt8

variable {bytes rest : List UInt8} {k : Nat} {u : UInt16} {lead b : UInt8}

theorem forall_byte {P : UInt8 → Prop} (all : ∀ n < 256, P (UInt8.ofNat n)) (b : UInt8) : P b := by
  have here := all b.toNat b.toNat_lt
  rwa [UInt8.ofNat_toNat] at here

namespace Mutf8

open Text (isContinuation readRune runesOf)

/-! ## Bits -/

theorem byte_ranges : ∀ b : UInt8, (b &&& 0xe0 = 0xc0 ↔ 192 ≤ b.toNat ∧ b.toNat < 224) ∧
    (b &&& 0xf0 = 0xe0 ↔ 224 ≤ b.toNat ∧ b.toNat < 240) ∧
    (isContinuation b = true ↔ 128 ≤ b.toNat ∧ b.toNat < 192) :=
  forall_byte (by decide +kernel)

theorem lead_two_iff (b : UInt8) : b &&& 0xe0 = 0xc0 ↔ 192 ≤ b.toNat ∧ b.toNat < 224 :=
  (byte_ranges b).1

theorem lead_three_iff (b : UInt8) : b &&& 0xf0 = 0xe0 ↔ 224 ≤ b.toNat ∧ b.toNat < 240 :=
  (byte_ranges b).2.1

theorem isContinuation_iff (b : UInt8) : isContinuation b = true ↔ 128 ≤ b.toNat ∧ b.toNat < 192 :=
  (byte_ranges b).2.2

theorem toNat_shifted (b mask : UInt8) (amount : UInt16) {n : Nat} (low : mask.toNat = 2 ^ n - 1)
    (places : amount.toNat % 16 = k) (fits : n + k ≤ 16) :
    ((b &&& mask).toUInt16 <<< amount).toNat = b.toNat % 2 ^ n * 2 ^ k := by
  rw [UInt16.toNat_shiftLeft, UInt8.toNat_toUInt16, UInt8.toNat_and, low,
    Nat.and_two_pow_sub_one_eq_mod, places, Nat.shiftLeft_eq]
  refine Nat.mod_eq_of_lt (Nat.lt_of_lt_of_le ?_ (Nat.pow_le_pow_right (by decide) fits))
  rw [Nat.pow_add]
  exact Nat.mul_lt_mul_of_pos_right (Nat.mod_lt _ (Nat.two_pow_pos n)) (Nat.two_pow_pos k)

theorem toNat_joined {v : UInt16} {x : Nat} (high : u.toNat = x * 2 ^ k) (low : v.toNat < 2 ^ k) :
    (u ||| v).toNat = x * 2 ^ k + v.toNat := by
  rw [UInt16.toNat_or, high, ← Nat.shiftLeft_eq, Nat.shiftLeft_add_eq_or_of_lt low]

theorem toNat_low (c : UInt8) : (c &&& 0x3f).toUInt16.toNat = c.toNat % 64 := by
  rw [UInt8.toNat_toUInt16, UInt8.toNat_and]
  exact Nat.and_two_pow_sub_one_eq_mod c.toNat 6

theorem toNat_unit_two (b c : UInt8) :
    ((b &&& 0x1f).toUInt16 <<< 6 ||| (c &&& 0x3f).toUInt16).toNat =
      b.toNat % 32 * 64 + c.toNat % 64 := by
  have high := toNat_shifted b 0x1f 6 (n := 5) (k := 6) rfl rfl (by decide)
  have low := toNat_low c
  have joined := toNat_joined (k := 6) high (by rw [low]; omega)
  rwa [low] at joined

theorem toNat_unit_three (b c d : UInt8) :
    ((b &&& 0x0f).toUInt16 <<< 12 ||| (c &&& 0x3f).toUInt16 <<< 6 ||| (d &&& 0x3f).toUInt16).toNat =
      b.toNat % 16 * 4096 + c.toNat % 64 * 64 + d.toNat % 64 := by
  have high := toNat_shifted b 0x0f 12 (n := 4) (k := 12) rfl rfl (by decide)
  have middle := toNat_shifted c 0x3f 6 (n := 6) (k := 6) rfl rfl (by decide)
  have joined := toNat_joined (k := 12) high (by rw [middle]; omega)
  have aligned : ((b &&& 0x0f).toUInt16 <<< 12 ||| (c &&& 0x3f).toUInt16 <<< 6).toNat =
      (b.toNat % 16 * 64 + c.toNat % 64) * 2 ^ 6 := by
    rw [joined, middle]
    omega
  rw [toNat_joined (k := 6) aligned (by rw [toNat_low]; omega), toNat_low]
  omega

theorem toNat_cut (u : UInt16) : (u &&& 0x3f).toUInt8 = ofNat (u.toNat % 64) := by
  apply UInt8.toNat_inj.mp
  rw [UInt16.toNat_toUInt8, UInt16.toNat_and, UInt8.toNat_ofNat']
  exact congrArg (· % 256) (Nat.and_two_pow_sub_one_eq_mod u.toNat 6)

theorem toNat_moved (u amount : UInt16) (places : amount.toNat % 16 = k) :
    (u >>> amount).toUInt8 = ofNat (u.toNat / 2 ^ k) := by
  apply UInt8.toNat_inj.mp
  rw [UInt16.toNat_toUInt8, UInt16.toNat_shiftRight, UInt8.toNat_ofNat', places,
    Nat.shiftRight_eq_div_pow]

theorem encodeUnit_eq (u : UInt16) : encodeUnit u =
    if u.toNat ≠ 0 ∧ u.toNat < 0x80 then [ofNat u.toNat]
    else if u.toNat < 0x800 then [ofNat (192 + u.toNat / 64), ofNat (128 + u.toNat % 64)]
    else [ofNat (224 + u.toNat / 4096), ofNat (128 + u.toNat / 64 % 64),
      ofNat (128 + u.toNat % 64)] := by
  have bound := u.toNat_lt
  have firstOfTwo : ∀ n < 32, ofNat n ||| 0xc0 = ofNat (192 + n) := by decide
  have firstOfThree : ∀ n < 16, ofNat n ||| 0xe0 = ofNat (224 + n) := by decide
  have later : ∀ n < 64, ofNat n ||| 0x80 = ofNat (128 + n) := by decide
  have isOne : (u ≠ 0 ∧ u < 0x80) ↔ (u.toNat ≠ 0 ∧ u.toNat < 0x80) := by
    rw [UInt16.lt_iff_toNat_lt, Ne, ← UInt16.toNat_inj]
    rfl
  have isTwo : u < 0x800 ↔ u.toNat < 0x800 := UInt16.lt_iff_toNat_lt
  have last := toNat_cut u
  have middle : ((u >>> 6) &&& 0x3f).toUInt8 = ofNat (u.toNat / 64 % 64) := by
    rw [toNat_cut, UInt16.toNat_shiftRight]
    exact congrArg (fun n => ofNat (n % 64)) (Nat.shiftRight_eq_div_pow u.toNat 6)
  have firstTwo : (u >>> 6).toUInt8 = ofNat (u.toNat / 64) := toNat_moved u 6 rfl
  have firstThree : (u >>> 12).toUInt8 = ofNat (u.toNat / 4096) := toNat_moved u 12 rfl
  unfold encodeUnit
  simp only [isOne, isTwo, last, middle, firstTwo, firstThree]
  split
  · apply congrArg (fun b => [b])
    exact UInt8.toNat_inj.mp (by rw [UInt16.toNat_toUInt8, UInt8.toNat_ofNat'])
  · rw [later _ (Nat.mod_lt _ (by decide))]
    split
    next small => rw [firstOfTwo _ (by omega)]
    next large =>
      rw [firstOfThree _ (by omega), later _ (Nat.mod_lt _ (by decide))]

theorem surrogate_iff (u : UInt16) :
    (isHigh u = true ∨ isLow u = true) ↔ 0xd800 ≤ u.toNat ∧ u.toNat ≤ 0xdfff := by
  simp only [isHigh, isLow, Bool.and_eq_true, decide_eq_true_eq, UInt16.le_iff_toNat_le,
    UInt16.lt_iff_toNat_lt, UInt16.reduceToNat]
  omega

/-! ## Bytes that stay

The bytes that both forms share are not looked at one by one. They would come out as they are.
-/

theorem runesOf_low (low : ∀ b ∈ bytes, b < 0x80) :
    runesOf bytes = bytes.map fun b => ⟨b.toNat, 1⟩ := by
  induction bytes with
  | nil => rw [runesOf, map_nil]
  | cons b rest ih =>
    rw [forall_mem_cons] at low
    have first : readRune b rest = ⟨b.toNat, 1⟩ := if_pos low.1
    rw [runesOf, first, map_cons, ← ih low.2]
    rfl

theorem units_low (low : ∀ b ∈ bytes, b < 0x80) : units bytes = bytes.map toUInt16 := by
  induction bytes with
  | nil => rfl
  | cons b rest ih =>
    rw [forall_mem_cons] at low
    rw [units.eq_def, map_cons, ← ih low.2]
    exact if_pos low.1

theorem joinUnits_cons {us : List UInt16} (plain : isHigh u = false ∧ isLow u = false) :
    joinUnits (u :: us) = u.toNat :: joinUnits us := by
  cases us <;> simp [joinUnits, plain]

theorem joinUnits_low (low : ∀ b ∈ bytes, b < 0x80) :
    joinUnits (bytes.map toUInt16) = bytes.map toNat := by
  induction bytes with
  | nil => rfl
  | cons b rest ih =>
    rw [forall_mem_cons] at low
    have small : b.toNat < 128 := lt_iff_toNat_lt.mp low.1
    have value : b.toUInt16.toNat = b.toNat := toNat_toUInt16 b
    have plain := (surrogate_iff b.toUInt16).not.mpr (by omega)
    rw [not_or, Bool.not_eq_true, Bool.not_eq_true] at plain
    rw [map_cons, joinUnits_cons plain, ih low.2, value, map_cons]

theorem encodeUnit_low (nonzero : b ≠ 0) (low : b < 0x80) : encodeUnit b.toUInt16 = [b] := by
  have value : b.toUInt16.toNat = b.toNat := UInt8.toNat_toUInt16 b
  have small : b.toNat < 128 := UInt8.lt_iff_toNat_lt.mp low
  have positive : b.toNat ≠ 0 := fun zero => nonzero (UInt8.toNat_inj.mp zero)
  rw [encodeUnit_eq, value, if_pos ⟨positive, small⟩, UInt8.ofNat_toNat]

theorem decode_eq (t : Text) : decode t = Text.ofCodes (joinUnits (units t.bytes)) := by
  unfold decode
  split
  next low =>
    simp only [all_eq_true, decide_eq_true_eq] at low
    apply Text.ext
    rw [units_low low, joinUnits_low low]
    change _ = (t.bytes.map toNat).flatMap Text.encodeRune
    rw [flatMap_map]
    refine (flatMap_singleton' t.bytes).symm.trans (flatMap_congr fun b member => ?_)
    have small : b.toNat < 128 := lt_iff_toNat_lt.mp (low b member)
    have scalar : Text.isScalar b.toNat = true := by
      rw [Text.isScalar, Bool.or_eq_true, decide_eq_true_eq]
      exact .inl (by omega)
    rw [Text.encodeRune, if_pos scalar]
    dsimp only
    rw [if_pos small, UInt8.ofNat_toNat]
  · rfl

theorem encode_eq (t : Text) :
    encode t = ⟨t.runes.flatMap fun rune => (unitsOf rune.code).flatMap encodeUnit⟩ := by
  unfold encode
  split
  next plain =>
    simp only [all_eq_true, Bool.and_eq_true, decide_eq_true_eq] at plain
    apply Text.ext
    change _ = (runesOf t.bytes).flatMap _
    rw [runesOf_low fun b member => (plain b member).2, flatMap_map]
    refine (flatMap_singleton' t.bytes).symm.trans (flatMap_congr fun b member => ?_)
    obtain ⟨nonzero, low⟩ := plain b member
    have unit : unitsOf b.toNat = [b.toUInt16] := by
      have small : b.toNat < 128 := lt_iff_toNat_lt.mp low
      rw [unitsOf, if_pos (by omega), ← toNat_toUInt16, UInt16.ofNat_toNat]
    dsimp only
    rw [unit, flatMap_singleton, encodeUnit_low nonzero low]
  · rfl

theorem ofNat_eq {n : Nat} (same : n = b.toNat) : UInt8.ofNat n = b := by
  rw [same, UInt8.ofNat_toNat]

end Mutf8

namespace Text

/-! ## Runes -/

/-- The rune at the beginning of some bytes, by the number of bytes it takes. -/
inductive Begins : UInt8 → List UInt8 → Rune → Prop where
  | broken {lead : UInt8} {rest : List UInt8} : Begins lead rest .broken
  | one {lead : UInt8} {rest : List UInt8} (low : lead.toNat < 128) :
    Begins lead rest ⟨lead.toNat, 1⟩
  | two {lead b : UInt8} {rest : List UInt8} (range : 194 ≤ lead.toNat ∧ lead.toNat < 224)
    (second : 128 ≤ b.toNat ∧ b.toNat < 192) :
    Begins lead (b :: rest) ⟨lead.toNat % 32 * 64 + b.toNat % 64, 2⟩
  | three {lead b c : UInt8} {rest : List UInt8} {code : Nat}
    (range : 224 ≤ lead.toNat ∧ lead.toNat < 240) (second : 128 ≤ b.toNat ∧ b.toNat < 192)
    (third : 128 ≤ c.toNat ∧ c.toNat < 192)
    (spelled : code = lead.toNat % 16 * 4096 + b.toNat % 64 * 64 + c.toNat % 64)
    (long : 0x800 ≤ code) (plain : ¬ (0xd800 ≤ code ∧ code ≤ 0xdfff)) :
    Begins lead (b :: c :: rest) ⟨code, 3⟩
  | four {lead b c d : UInt8} {rest : List UInt8} {code : Nat}
    (range : 240 ≤ lead.toNat ∧ lead.toNat < 245) (second : 128 ≤ b.toNat ∧ b.toNat < 192)
    (third : 128 ≤ c.toNat ∧ c.toNat < 192) (fourth : 128 ≤ d.toNat ∧ d.toNat < 192)
    (spelled : code = lead.toNat % 8 * 262144 + b.toNat % 64 * 4096 + c.toNat % 64 * 64 +
      d.toNat % 64) (long : 0x10000 ≤ code) (small : code ≤ 0x10ffff) :
    Begins lead (b :: c :: d :: rest) ⟨code, 4⟩

theorem toNat_masked (b mask : UInt8) {n : Nat} (low : mask.toNat = 2 ^ n - 1) :
    (b &&& mask).toNat = b.toNat % 2 ^ n := by
  rw [UInt8.toNat_and, low, Nat.and_two_pow_sub_one_eq_mod]

theorem continuationBits_eq (b : UInt8) : continuationBits b = b.toNat % 64 :=
  toNat_masked b 0x3f (n := 6) rfl

theorem begins_readRune (lead : UInt8) (rest : List UInt8) :
    Begins lead rest (readRune lead rest) := by
  have continues : ∀ {b : UInt8}, isContinuation b = true → 128 ≤ b.toNat ∧ b.toNat < 192 :=
    fun {b} here => (Mutf8.isContinuation_iff b).mp here
  have below : ∀ {n : UInt8}, lead < n ↔ lead.toNat < n.toNat := lt_iff_toNat_lt
  unfold readRune
  split
  next low => exact .one (below.mp low)
  split
  · exact .broken
  next _ notBroken =>
  have from194 : 194 ≤ lead.toNat := Nat.not_lt.mp fun less => notBroken (below.mpr less)
  split
  next upper =>
    split
    · split
      next second =>
        rw [toNat_masked lead 0x1f (n := 5) rfl, continuationBits_eq]
        exact .two ⟨from194, below.mp upper⟩ (continues second)
      · exact .broken
    · exact .broken
  next notTwo =>
  have from224 : 224 ≤ lead.toNat := Nat.not_lt.mp fun less => notTwo (below.mpr less)
  split
  next upper =>
    split
    · dsimp only
      split
      next all =>
        simp only [Bool.and_eq_true, Bool.not_eq_true', Bool.and_eq_false_iff,
          decide_eq_true_eq, decide_eq_false_iff_not] at all
        obtain ⟨⟨⟨second, third⟩, long⟩, plain⟩ := all
        refine .three ⟨from224, below.mp upper⟩ (continues second) (continues third) ?_ long
          (not_and_or.mpr plain)
        rw [toNat_masked lead 0x0f (n := 4) rfl, continuationBits_eq, continuationBits_eq]
        rfl
      · exact .broken
    · exact .broken
  next notThree =>
  have from240 : 240 ≤ lead.toNat := Nat.not_lt.mp fun less => notThree (below.mpr less)
  split
  next upper =>
    split
    · dsimp only
      split
      next all =>
        simp only [Bool.and_eq_true, decide_eq_true_eq] at all
        obtain ⟨⟨⟨⟨second, third⟩, fourth⟩, long⟩, small⟩ := all
        refine .four ⟨from240, below.mp upper⟩ (continues second) (continues third)
          (continues fourth) ?_ long small
        rw [toNat_masked lead 0x07 (n := 3) rfl, continuationBits_eq, continuationBits_eq,
          continuationBits_eq]
        rfl
      · exact .broken
    · exact .broken
  · exact .broken

theorem isScalar_iff (code : Nat) :
    isScalar code = true ↔ code < 0xd800 ∨ 0xdfff < code ∧ code ≤ 0x10ffff := by
  simp only [isScalar, Bool.or_eq_true, Bool.and_eq_true, decide_eq_true_eq, gt_iff_lt]

section Begins

variable {lead : UInt8} {rest : List UInt8} {rune : Rune}

section

variable (begins : Begins lead rest rune)

include begins

theorem Begins.isScalar : isScalar rune.code = true := by
  rw [isScalar_iff]
  cases begins with
  | broken => exact .inr (by decide)
  | one low | two range second => left; dsimp only; omega
  | three range second third spelled long plain => dsimp only; omega
  | four range second third fourth spelled long small => right; dsimp only; omega

theorem Begins.width_le : 1 ≤ rune.width ∧ rune.width ≤ rest.length + 1 := by
  cases begins <;> simp only [Rune.broken, length_cons] <;> omega

theorem Begins.encodeRune_eq (whole : rune.isBroken = false) :
    encodeRune rune.code ++ rest.drop (rune.width - 1) = lead :: rest := by
  have scalar := begins.isScalar
  unfold encodeRune
  rw [if_pos scalar]
  cases begins with
  | broken => cases whole
  | one low =>
    dsimp only
    rw [if_pos low, UInt8.ofNat_toNat]
    rfl
  | @two b _ range second =>
    dsimp only
    rw [if_neg (by omega), if_pos (by omega), Mutf8.ofNat_eq (b := lead) (by omega),
      Mutf8.ofNat_eq (b := b) (by omega)]
    rfl
  | @three b c _ code range second third spelled long plain =>
    dsimp only
    rw [if_neg (by omega), if_neg (by omega), if_pos (by omega),
      Mutf8.ofNat_eq (b := lead) (by omega), Mutf8.ofNat_eq (b := b) (by omega),
      Mutf8.ofNat_eq (b := c) (by omega)]
    rfl
  | @four b c d _ code range second third fourth spelled long small =>
    dsimp only
    rw [if_neg (by omega), if_neg (by omega), if_neg (by omega),
      Mutf8.ofNat_eq (b := lead) (by omega), Mutf8.ofNat_eq (b := b) (by omega),
      Mutf8.ofNat_eq (b := c) (by omega), Mutf8.ofNat_eq (b := d) (by omega)]
    rfl

end

end Begins

theorem isScalar_of_mem_runesOf {bytes : List UInt8} {rune : Rune} (member : rune ∈ runesOf bytes) :
    isScalar rune.code = true := by
  fun_induction runesOf bytes with
  | case1 => cases member
  | case2 lead rest first ih =>
    rcases mem_cons.mp member with rfl | later
    · exact (begins_readRune lead rest).isScalar
    · exact ih later

/-- The text with every broken byte replaced. -/
def mended (t : Text) : Text := ofCodes (t.runes.map Rune.code)

theorem mended_eq {t : Text} (utf8 : t.isUtf8 = true) : t.mended = t := by
  obtain ⟨bytes⟩ := t
  apply Text.ext
  have whole : (runesOf bytes).all (fun rune => !rune.isBroken) = true := utf8
  clear utf8
  change ((runesOf bytes).map Rune.code).flatMap encodeRune = bytes
  fun_induction runesOf bytes with
  | case1 => rfl
  | case2 lead rest rune ih =>
    rw [all_cons, Bool.and_eq_true, Bool.not_eq_true'] at whole
    rw [map_cons, flatMap_cons, ih whole.2]
    exact (begins_readRune lead rest).encodeRune_eq whole.1

theorem isUtf8_of_ascii {t : Text} (ascii : ∀ b ∈ t.bytes, b < 0x80) : t.isUtf8 = true := by
  obtain ⟨bytes⟩ := t
  change (runesOf bytes).all (fun rune => !rune.isBroken) = true
  change ∀ b ∈ bytes, b < 0x80 at ascii
  fun_induction runesOf bytes with
  | case1 => rfl
  | case2 lead rest rune ih =>
    rw [forall_mem_cons] at ascii
    have single : rune = ⟨lead.toNat, 1⟩ := if_pos ascii.1
    have small : lead.toNat < 128 := lt_iff_toNat_lt.mp ascii.1
    have whole : rune.isBroken = false := by
      rw [single, Rune.isBroken, Bool.and_eq_false_iff]
      exact .inl (beq_false_of_ne (Nat.ne_of_lt (Nat.lt_trans small (by decide))))
    rw [single] at ih
    rw [all_cons, whole, single]
    exact ih ascii.2

end Text

namespace Mutf8

open Text (Rune Begins runesOf isScalar isScalar_iff begins_readRune)

variable {us : List UInt16}

/-! ## Units -/

/-- Bytes that spell some units one after another, each in the shortest form; zero is spelled in
two bytes. -/
inductive Shortest : List UInt8 → List UInt16 → Prop where
  | nil : Shortest [] []
  | one {b : UInt8} {u : UInt16} {rest : List UInt8} {us : List UInt16} (value : u.toNat = b.toNat)
      (range : 0 < u.toNat ∧ u.toNat < 0x80) (more : Shortest rest us) :
      Shortest (b :: rest) (u :: us)
  | two {b c : UInt8} {u : UInt16} {rest : List UInt8} {us : List UInt16}
      (first : 0xc0 ≤ b.toNat ∧ b.toNat < 0xe0) (second : 0x80 ≤ c.toNat ∧ c.toNat < 0xc0)
      (value : u.toNat = b.toNat % 32 * 64 + c.toNat % 64) (long : u.toNat = 0 ∨ 0x80 ≤ u.toNat)
      (more : Shortest rest us) : Shortest (b :: c :: rest) (u :: us)
  | three {b c d : UInt8} {u : UInt16} {rest : List UInt8} {us : List UInt16}
      (first : 0xe0 ≤ b.toNat ∧ b.toNat < 0xf0) (second : 0x80 ≤ c.toNat ∧ c.toNat < 0xc0)
      (third : 0x80 ≤ d.toNat ∧ d.toNat < 0xc0)
      (value : u.toNat = b.toNat % 16 * 4096 + c.toNat % 64 * 64 + d.toNat % 64)
      (long : 0x800 ≤ u.toNat) (more : Shortest rest us) : Shortest (b :: c :: d :: rest) (u :: us)

theorem shortest_encodeUnits (us : List UInt16) : Shortest (us.flatMap encodeUnit) us := by
  have byte : ∀ {n : Nat}, n < 256 → (ofNat n).toNat = n := by
    intro n small
    rw [toNat_ofNat', Nat.mod_eq_of_lt small]
  induction us with
  | nil => exact .nil
  | cons u us ih =>
    have bound := u.toNat_lt
    rw [flatMap_cons, encodeUnit_eq]
    split
    next one =>
      have first := byte (n := u.toNat) (by omega)
      exact .one first.symm ⟨Nat.pos_of_ne_zero one.1, one.2⟩ ih
    next notOne =>
    split
    next two =>
      have first : (ofNat (192 + u.toNat / 64)).toNat = 192 + u.toNat / 64 := byte (by omega)
      have second : (ofNat (128 + u.toNat % 64)).toNat = 128 + u.toNat % 64 := byte (by omega)
      exact .two (by omega) (by omega) (by omega) (by omega) ih
    next notTwo =>
      have first : (ofNat (224 + u.toNat / 4096)).toNat = 224 + u.toNat / 4096 :=
        byte (by omega)
      have second : (ofNat (128 + u.toNat / 64 % 64)).toNat = 128 + u.toNat / 64 % 64 :=
        byte (by omega)
      have third : (ofNat (128 + u.toNat % 64)).toNat = 128 + u.toNat % 64 := byte (by omega)
      exact .three (by omega) (by omega) (by omega) (by omega) (by omega) ih

theorem Shortest.units_eq (shortest : Shortest bytes us) : units bytes = us := by
  have high : ∀ {b : UInt8}, 0x80 ≤ b.toNat → ¬ b < 0x80 := fun {b} le low =>
    absurd (lt_iff_toNat_lt.mp low) (Nat.not_lt.mpr le)
  induction shortest with
  | nil => rfl
  | @one b u _ _ value range more ih =>
    have low : b < 0x80 := lt_iff_toNat_lt.mpr (value ▸ range.2)
    have same : b.toUInt16 = u := by
      rw [← UInt16.toNat_inj, toNat_toUInt16, value]
    rw [units.eq_def]
    dsimp only
    rw [if_pos low, same, ih]
  | @two b c u _ _ first second value long more ih =>
    have same : (b &&& 0x1f).toUInt16 <<< 6 ||| (c &&& 0x3f).toUInt16 = u := by
      rw [← UInt16.toNat_inj, toNat_unit_two, value]
    rw [units, if_neg (high (by omega)), if_pos ((lead_two_iff b).mpr first), same, ih]
  | @three b c d u _ _ first second third value long more ih =>
    have notTwo : ¬ b &&& 0xe0 = 0xc0 := by
      rw [lead_two_iff]
      omega
    have same : (b &&& 0x0f).toUInt16 <<< 12 ||| (c &&& 0x3f).toUInt16 <<< 6 |||
        (d &&& 0x3f).toUInt16 = u := by
      rw [← UInt16.toNat_inj, toNat_unit_three, value]
    rw [units, if_neg (high (by omega)), if_neg notTwo, if_pos ((lead_three_iff b).mpr first)]
    dsimp only
    rw [same, ih]

theorem units_flatMap_encodeUnit (us : List UInt16) : units (us.flatMap encodeUnit) = us :=
  (shortest_encodeUnits us).units_eq

theorem joinUnits_unitsOf {code : Nat} (scalar : isScalar code = true) (rest : List UInt16) :
    joinUnits (unitsOf code ++ rest) = code :: joinUnits rest := by
  rw [isScalar_iff] at scalar
  have unit : ∀ {n : Nat}, n < 65536 → (UInt16.ofNat n).toNat = n := by
    intro n small
    rw [UInt16.toNat_ofNat', Nat.mod_eq_of_lt small]
  have halves : ∀ u : UInt16, (isHigh u = true ↔ 0xd800 ≤ u.toNat ∧ u.toNat < 0xdc00) ∧
      (isLow u = true ↔ 0xdc00 ≤ u.toNat ∧ u.toNat < 0xe000) := by
    intro u
    simp only [isHigh, isLow, Bool.and_eq_true, decide_eq_true_eq, UInt16.le_iff_toNat_le,
      UInt16.lt_iff_toNat_lt, UInt16.reduceToNat, and_self]
  unfold unitsOf
  split
  next small =>
    have value : (UInt16.ofNat code).toNat = code := unit small
    generalize UInt16.ofNat code = u at value ⊢
    have notHigh : isHigh u = false := by
      rw [← Bool.not_eq_true, (halves u).1]
      omega
    have notLow : isLow u = false := by
      rw [← Bool.not_eq_true, (halves u).2]
      omega
    cases rest <;> simp [joinUnits, notHigh, notLow, value]
  next large =>
    have first : (UInt16.ofNat (0xd800 + (code - 0x10000) / 1024)).toNat =
        0xd800 + (code - 0x10000) / 1024 := unit (by omega)
    have second : (UInt16.ofNat (0xdc00 + (code - 0x10000) % 1024)).toNat =
        0xdc00 + (code - 0x10000) % 1024 := unit (by omega)
    generalize UInt16.ofNat (0xd800 + (code - 0x10000) / 1024) = u at first ⊢
    generalize UInt16.ofNat (0xdc00 + (code - 0x10000) % 1024) = v at second ⊢
    have pair : (isHigh u && isLow v) = true := by
      rw [Bool.and_eq_true, (halves u).1, (halves v).2]
      omega
    have value : 0x10000 + (u.toNat - 0xd800) * 1024 + (v.toNat - 0xdc00) = code := by omega
    change joinUnits (u :: v :: rest) = code :: joinUnits rest
    rw [joinUnits, if_pos pair, value]

theorem joinUnits_flatMap_unitsOf {codes : List Nat} (scalar : ∀ c ∈ codes, isScalar c = true) :
    joinUnits (codes.flatMap unitsOf) = codes := by
  induction codes with
  | nil => rfl
  | cons code codes ih =>
    rw [forall_mem_cons] at scalar
    rw [flatMap_cons, joinUnits_unitsOf scalar.1, ih scalar.2]

theorem decode_encode_mended (t : Text) : decode (encode t) = t.mended := by
  have written : (encode t).bytes = ((t.runes.map Rune.code).flatMap unitsOf).flatMap encodeUnit := by
    rw [encode_eq, flatMap_assoc, flatMap_map]
  rw [decode_eq, written, units_flatMap_encodeUnit, joinUnits_flatMap_unitsOf]
  · rfl
  · intro code member
    obtain ⟨rune, listed, rfl⟩ := mem_map.mp member
    exact Text.isScalar_of_mem_runesOf listed

/-! ## Lengths -/

theorem length_encodeUnit (u : UInt16) : (encodeUnit u).length =
    if u.toNat ≠ 0 ∧ u.toNat < 0x80 then 1 else if u.toNat < 0x800 then 2 else 3 := by
  rw [encodeUnit_eq]
  split
  · rfl
  · split <;> rfl

/-- A rune takes no less than the bytes that it was read from, and no more than three for each; it
takes just as many only if it is one unit other than zero. -/
theorem length_written {lead : UInt8} {rest : List UInt8} {rune : Rune}
    (begins : Begins lead rest rune) :
    rune.width ≤ ((unitsOf rune.code).flatMap encodeUnit).length ∧
    ((unitsOf rune.code).flatMap encodeUnit).length ≤ 3 * rune.width ∧
    (((unitsOf rune.code).flatMap encodeUnit).length = rune.width →
      rune.code ≠ 0 ∧ rune.code < 0x10000) := by
  have unit : ∀ {n : Nat}, n < 65536 → (UInt16.ofNat n).toNat = n := by
    intro n small
    rw [UInt16.toNat_ofNat', Nat.mod_eq_of_lt small]
  have one : rune.code < 0x10000 → ((unitsOf rune.code).flatMap encodeUnit).length =
      if rune.code ≠ 0 ∧ rune.code < 0x80 then 1 else if rune.code < 0x800 then 2 else 3 := by
    intro small
    rw [unitsOf, if_pos small, flatMap_singleton, length_encodeUnit, unit small]
  have two : 0x10000 ≤ rune.code → rune.code ≤ 0x10ffff →
      ((unitsOf rune.code).flatMap encodeUnit).length = 6 := by
    intro large small
    rw [unitsOf, if_neg (Nat.not_lt.mpr large), flatMap_cons, flatMap_singleton, length_append,
      length_encodeUnit, length_encodeUnit, unit (by omega), unit (by omega),
      if_neg (by omega), if_neg (by omega), if_neg (by omega), if_neg (by omega)]
  cases begins with
  | broken => decide
  | one low =>
    dsimp only at one ⊢
    rw [one (by omega)]
    split
    · omega
    · split <;> omega
  | two range second =>
    dsimp only at one ⊢
    rw [one (by omega), if_neg (by omega), if_pos (by omega)]
    omega
  | three range second third spelled long =>
    dsimp only at one ⊢
    rw [one (by omega), if_neg (by omega), if_neg (by omega)]
    omega
  | four range second third fourth spelled long small =>
    dsimp only at two ⊢
    rw [two long small]
    omega

theorem length_encode (t : Text) : t.length ≤ (encode t).length ∧ (encode t).length ≤ 3 * t.length ∧
    ((encode t).length = t.length → ∀ rune ∈ t.runes, rune.code ≠ 0 ∧ rune.code < 0x10000) := by
  obtain ⟨bytes⟩ := t
  rw [encode_eq]
  change bytes.length ≤ ((runesOf bytes).flatMap _).length ∧
    ((runesOf bytes).flatMap _).length ≤ 3 * bytes.length ∧
    (((runesOf bytes).flatMap _).length = bytes.length → ∀ rune ∈ runesOf bytes, _)
  fun_induction runesOf bytes with
  | case1 => exact ⟨Nat.le_refl _, Nat.le_refl _, fun _ _ member => absurd member not_mem_nil⟩
  | case2 lead rest rune ih =>
    have begins := begins_readRune lead rest
    obtain ⟨least, most, same⟩ := length_written begins
    have width := begins.width_le
    obtain ⟨leastRest, mostRest, sameRest⟩ := ih
    rw [length_drop] at leastRest mostRest sameRest
    rw [flatMap_cons, length_append, length_cons]
    dsimp only [rune] at *
    refine ⟨by omega, by omega, fun all => forall_mem_cons.mpr ⟨same (by omega), sameRest (by omega)⟩⟩

theorem length_encode_le (t : Text) : (encode t).length ≤ 3 * t.length := (length_encode t).2.1

end Mutf8

end DexLift
