import DexLift.Proofs.Dex.ModifiedUtf8
import Mathlib.Algebra.GroupWithZero.Nat

/-!
# The two forms of a text

Texts in UTF-8 and units in modified UTF-8 correspond to each other: each scalar value
is one unit or a pair of them, and each unit is spelled in one to three bytes, always in
the shortest form, but for zero, which takes two. What is written for a text is therefore
read back as the text, holds no zero byte and is measured rightly by the scanner; and
what is spelled in the shortest form, with every surrogate in a pair, is written once more
as it was read.
-/

namespace DexLift

open List

namespace Text

variable {lead : UInt8} {rest : List UInt8} {rune : Rune} {code : Nat} {codes : List Nat}

/-! ## Scalar values and their bytes -/

theorem isContinuation_of_toNat {b : UInt8} (range : 128 ≤ b.toNat ∧ b.toNat < 192) :
    isContinuation b = true :=
  (Mutf8.isContinuation_iff b).mpr range

theorem Begins.readRune_eq (begins : Begins lead rest rune) (whole : rune.isBroken = false) :
    readRune lead rest = rune := by
  simp only [readRune, UInt8.lt_iff_toNat_lt, UInt8.reduceToNat]
  cases begins with
  | broken => cases whole
  | one low => exact if_pos low
  | @two b _ range second =>
    have code : (lead &&& 0x1f).toNat * 64 + continuationBits b =
        lead.toNat % 32 * 64 + b.toNat % 64 := by
      rw [toNat_masked lead 0x1f (n := 5) rfl, continuationBits_eq]
      rfl
    rw [if_neg (by omega), if_neg (by omega), if_pos range.2]
    dsimp only
    rw [if_pos (isContinuation_of_toNat second), code]
  | @three b c _ code range second third spelled long plain =>
    have same : (lead &&& 0x0f).toNat * 4096 + continuationBits b * 64 + continuationBits c =
        code := by
      rw [toNat_masked lead 0x0f (n := 4) rfl, continuationBits_eq, continuationBits_eq]
      exact spelled.symm
    rw [if_neg (by omega), if_neg (by omega), if_neg (by omega), if_pos range.2]
    dsimp only
    rw [same, if_pos]
    simp only [isContinuation_of_toNat second, isContinuation_of_toNat third, Bool.and_eq_true,
      Bool.not_eq_true', Bool.and_eq_false_iff, decide_eq_true_eq, decide_eq_false_iff_not, true_and]
    exact ⟨long, not_and_or.mp plain⟩
  | @four b c d _ code range second third fourth spelled long small =>
    have same : (lead &&& 0x07).toNat * 262144 + continuationBits b * 4096 +
        continuationBits c * 64 + continuationBits d = code := by
      rw [toNat_masked lead 0x07 (n := 3) rfl, continuationBits_eq, continuationBits_eq,
        continuationBits_eq]
      exact spelled.symm
    rw [if_neg (by omega), if_neg (by omega), if_neg (by omega), if_neg (by omega), if_pos range.2]
    dsimp only
    rw [same, if_pos]
    simp only [isContinuation_of_toNat second, isContinuation_of_toNat third,
      isContinuation_of_toNat fourth, Bool.and_eq_true, decide_eq_true_eq, true_and]
    exact ⟨long, small⟩

/-- The bytes of a scalar value, whatever follows them, are read as this value. -/
theorem readRune_encodeRune (scalar : isScalar code = true) (rest : List UInt8) :
    ∃ lead tail, encodeRune code = lead :: tail ∧
      readRune lead (tail ++ rest) = ⟨code, tail.length + 1⟩ ∧
      Rune.isBroken ⟨code, tail.length + 1⟩ = false := by
  have byte : ∀ {n : Nat}, n < 256 → (UInt8.ofNat n).toNat = n := by
    intro n small
    rw [UInt8.toNat_ofNat', Nat.mod_eq_of_lt small]
  have wide : ∀ {width : Nat}, width ≠ 1 → Rune.isBroken ⟨code, width⟩ = false := fun more =>
    Bool.and_eq_false_iff.mpr (.inr (beq_false_of_ne more))
  unfold encodeRune
  rw [if_pos scalar]
  rw [isScalar_iff] at scalar
  dsimp only
  split
  next one =>
    have first := byte (n := code) (by omega)
    have whole : Rune.isBroken ⟨code, 1⟩ = false :=
      Bool.and_eq_false_iff.mpr (.inl (beq_false_of_ne (Nat.ne_of_lt (Nat.lt_trans one (by decide)))))
    have begins : Begins (UInt8.ofNat code) rest ⟨code, 1⟩ := by
      have begins : Begins (UInt8.ofNat code) rest _ := .one (by omega)
      rwa [first] at begins
    exact ⟨_, [], rfl, begins.readRune_eq whole, whole⟩
  split
  next notOne two =>
    have first : (UInt8.ofNat (0xc0 + code / 64)).toNat = 192 + code / 64 := byte (by omega)
    have second : (UInt8.ofNat (0x80 + code % 64)).toNat = 128 + code % 64 := byte (by omega)
    have begins : Begins (UInt8.ofNat (0xc0 + code / 64)) (UInt8.ofNat (0x80 + code % 64) :: rest)
        ⟨code, 2⟩ := by
      have begins : Begins (UInt8.ofNat (0xc0 + code / 64)) (UInt8.ofNat (0x80 + code % 64) :: rest)
        _ := .two (by omega) (by omega)
      have same : (192 + code / 64) % 32 * 64 + (128 + code % 64) % 64 = code := by omega
      rwa [first, second, same] at begins
    have whole : Rune.isBroken ⟨code, 2⟩ = false := wide (by decide)
    exact ⟨_, _, rfl, begins.readRune_eq whole, whole⟩
  split
  next notTwo three =>
    have first : (UInt8.ofNat (0xe0 + code / 4096)).toNat = 224 + code / 4096 := byte (by omega)
    have second : (UInt8.ofNat (0x80 + code / 64 % 64)).toNat = 128 + code / 64 % 64 :=
      byte (by omega)
    have third : (UInt8.ofNat (0x80 + code % 64)).toNat = 128 + code % 64 := byte (by omega)
    have begins : Begins (UInt8.ofNat (0xe0 + code / 4096))
        (UInt8.ofNat (0x80 + code / 64 % 64) :: UInt8.ofNat (0x80 + code % 64) :: rest) ⟨code, 3⟩ :=
      .three (by omega) (by omega) (by omega) (by omega) (by omega) (by omega)
    have whole : Rune.isBroken ⟨code, 3⟩ = false := wide (by decide)
    exact ⟨_, _, rfl, begins.readRune_eq whole, whole⟩
  next notThree =>
    have first : (UInt8.ofNat (0xf0 + code / 262144)).toNat = 240 + code / 262144 :=
      byte (by omega)
    have second : (UInt8.ofNat (0x80 + code / 4096 % 64)).toNat = 128 + code / 4096 % 64 :=
      byte (by omega)
    have third : (UInt8.ofNat (0x80 + code / 64 % 64)).toNat = 128 + code / 64 % 64 :=
      byte (by omega)
    have fourth : (UInt8.ofNat (0x80 + code % 64)).toNat = 128 + code % 64 := byte (by omega)
    have begins : Begins (UInt8.ofNat (0xf0 + code / 262144))
        (UInt8.ofNat (0x80 + code / 4096 % 64) :: UInt8.ofNat (0x80 + code / 64 % 64) ::
          UInt8.ofNat (0x80 + code % 64) :: rest) ⟨code, 4⟩ :=
      .four (by omega) (by omega) (by omega) (by omega) (by omega) (by omega) (by omega)
    have whole : Rune.isBroken ⟨code, 4⟩ = false := wide (by decide)
    exact ⟨_, _, rfl, begins.readRune_eq whole, whole⟩

theorem runesOf_encodeRune (scalar : isScalar code = true) (rest : List UInt8) :
    ∃ width, runesOf (encodeRune code ++ rest) = ⟨code, width⟩ :: runesOf rest ∧
      Rune.isBroken ⟨code, width⟩ = false := by
  obtain ⟨lead, tail, bytes, read, whole⟩ := readRune_encodeRune scalar rest
  refine ⟨tail.length + 1, ?_, whole⟩
  rw [bytes, cons_append, runesOf, read, Nat.add_sub_cancel, drop_left]

theorem runes_ofCodes (scalar : ∀ c ∈ codes, isScalar c = true) :
    (ofCodes codes).runes.map Rune.code = codes ∧ (ofCodes codes).isUtf8 = true := by
  change (runesOf (codes.flatMap encodeRune)).map Rune.code = codes ∧
    (runesOf (codes.flatMap encodeRune)).all (fun rune => !rune.isBroken) = true
  induction codes with
  | nil =>
    rw [flatMap_nil, runesOf]
    exact ⟨rfl, rfl⟩
  | cons code codes ih =>
    rw [forall_mem_cons] at scalar
    obtain ⟨width, runes, whole⟩ := runesOf_encodeRune scalar.1 (codes.flatMap encodeRune)
    obtain ⟨same, others⟩ := ih scalar.2
    rw [flatMap_cons, runes, map_cons, same, all_cons, whole, others]
    exact ⟨rfl, rfl⟩

/-- The number of units that a text takes in UTF-16: two for what lies above the first 65536
code points. -/
def unitCount (t : Text) : Nat := (t.runes.map fun rune => if rune.code < 0x10000 then 1 else 2).sum

end Text

namespace Mutf8

open Text (isScalar isScalar_iff ofCodes runesOf)

variable {bytes rest : List UInt8} {us : List UInt16}

/-! ## Spelling units -/

/-- Units in which every surrogate is part of a pair, a high one and then a low one. -/
inductive Paired : List UInt16 → Prop where
  | nil : Paired []
  | single {u : UInt16} {us : List UInt16} (plain : ¬ (0xd800 ≤ u.toNat ∧ u.toNat < 0xe000))
      (more : Paired us) : Paired (u :: us)
  | pair {u v : UInt16} {us : List UInt16} (high : 0xd800 ≤ u.toNat ∧ u.toNat < 0xdc00)
      (low : 0xdc00 ≤ v.toNat ∧ v.toNat < 0xe000) (more : Paired us) : Paired (u :: v :: us)

namespace Shortest

section

variable (shortest : Shortest bytes us)

include shortest

theorem eq_encodeUnits : bytes = us.flatMap encodeUnit := by
  induction shortest with
  | nil => rfl
  | one value range more ih =>
    rw [flatMap_cons, encodeUnit_eq, if_pos ⟨Nat.ne_of_gt range.1, range.2⟩, ofNat_eq value, ← ih]
    rfl
  | @two b c u _ _ first second value long more ih =>
    rw [flatMap_cons, encodeUnit_eq, if_neg (by omega), if_pos (by omega),
      ofNat_eq (b := b) (by omega), ofNat_eq (b := c) (by omega), ← ih]
    rfl
  | @three b c d u _ _ first second third value long more ih =>
    rw [flatMap_cons, encodeUnit_eq, if_neg (by omega), if_neg (by omega),
      ofNat_eq (b := b) (by omega), ofNat_eq (b := c) (by omega), ofNat_eq (b := d) (by omega), ← ih]
    rfl

theorem zero_not_mem : 0 ∉ bytes := by
  have nonzero : ∀ {b : UInt8}, 0 < b.toNat → (0 : UInt8) ≠ b := by
    rintro _ positive rfl
    exact absurd positive (by decide)
  induction shortest with
  | nil => exact not_mem_nil
  | one value range more ih => simp [nonzero (value ▸ range.1), ih]
  | @two b c _ _ _ first second value long more ih =>
    simp [nonzero (b := b) (by omega), nonzero (b := c) (by omega), ih]
  | @three b c d _ _ _ first second third value long more ih =>
    simp [nonzero (b := b) (by omega), nonzero (b := c) (by omega), nonzero (b := d) (by omega), ih]

theorem scan_eq (rest : List UInt8) :
    scan (bytes ++ 0 :: rest) = .ok (bytes.length, us.length) := by
  have nonzero : ∀ {b : UInt8}, 0 < b.toNat → b ≠ 0 := by
    rintro _ positive rfl
    exact absurd positive (by decide)
  have high : ∀ {b : UInt8}, 0x80 ≤ b.toNat → ¬ b < 0x80 := fun {b} le low =>
    absurd (UInt8.lt_iff_toNat_lt.mp low) (Nat.not_lt.mpr le)
  induction shortest with
  | nil =>
    rw [nil_append, scan.eq_def]
    exact if_pos rfl
  | @one b _ _ _ value range more ih =>
    have low : b < 0x80 := UInt8.lt_iff_toNat_lt.mpr (value ▸ range.2)
    rw [cons_append, scan.eq_def]
    dsimp only
    rw [if_neg (nonzero (value ▸ range.1)), if_pos low, ih]
    rfl
  | @two b c _ _ _ first second value long more ih =>
    rw [cons_append, cons_append, scan, if_neg (nonzero (by omega)), if_neg (high (by omega)),
      if_pos ((lead_two_iff b).mpr first), if_pos ((isContinuation_iff c).mpr second), ih]
    rfl
  | @three b c d _ _ _ first second third value long more ih =>
    have notTwo : ¬ b &&& 0xe0 = 0xc0 := by
      rw [lead_two_iff]
      omega
    have both : (Text.isContinuation c && Text.isContinuation d) = true :=
      Bool.and_eq_true_iff.mpr ⟨(isContinuation_iff c).mpr second, (isContinuation_iff d).mpr third⟩
    rw [cons_append, cons_append, cons_append, scan, if_neg (nonzero (by omega)),
      if_neg (high (by omega)), if_neg notTwo, if_pos ((lead_three_iff b).mpr first)]
    dsimp only
    rw [if_pos both, ih]
    rfl

end

end Shortest

/-! ## Pairing units -/

theorem Paired.exists_codes (paired : Paired us) :
    ∃ codes : List Nat, (∀ c ∈ codes, isScalar c = true) ∧ us = codes.flatMap unitsOf := by
  induction paired with
  | nil => exact ⟨[], forall_mem_nil _, rfl⟩
  | @single u _ plain more ih =>
    obtain ⟨codes, scalar, rfl⟩ := ih
    have bound := u.toNat_lt
    have units : unitsOf u.toNat = [u] := by
      rw [unitsOf, if_pos bound, UInt16.ofNat_toNat]
    refine ⟨u.toNat :: codes, forall_mem_cons.mpr ⟨?_, scalar⟩, ?_⟩
    · rw [isScalar_iff]
      omega
    · rw [flatMap_cons, units, singleton_append]
  | @pair u v _ high low more ih =>
    obtain ⟨codes, scalar, rfl⟩ := ih
    obtain ⟨code, spelled⟩ : ∃ code, code = 0x10000 + (u.toNat - 0xd800) * 1024 + (v.toNat - 0xdc00) :=
      ⟨_, rfl⟩
    have first : UInt16.ofNat (0xd800 + (code - 0x10000) / 1024) = u := by
      have same : 0xd800 + (code - 0x10000) / 1024 = u.toNat := by omega
      rw [same, UInt16.ofNat_toNat]
    have second : UInt16.ofNat (0xdc00 + (code - 0x10000) % 1024) = v := by
      have same : 0xdc00 + (code - 0x10000) % 1024 = v.toNat := by omega
      rw [same, UInt16.ofNat_toNat]
    have units : unitsOf code = [u, v] := by
      rw [unitsOf, if_neg (by omega), first, second]
    refine ⟨code :: codes, forall_mem_cons.mpr ⟨?_, scalar⟩, ?_⟩
    · rw [isScalar_iff]
      omega
    · rw [flatMap_cons, units]
      rfl

theorem length_unitsOf (code : Nat) : (unitsOf code).length = if code < 0x10000 then 1 else 2 := by
  unfold unitsOf
  split <;> rfl

/-! ## Both ways -/

theorem shortest_encode (t : Text) :
    ∃ us, Shortest (encode t).bytes us ∧ us.length = t.unitCount := by
  refine ⟨t.runes.flatMap fun rune => unitsOf rune.code, ?_, ?_⟩
  · rw [encode_eq, ← flatMap_assoc]
    exact shortest_encodeUnits _
  · rw [length_flatMap, Text.unitCount]
    simp only [length_unitsOf]

theorem encode_decode (shortest : Shortest bytes us) (paired : Paired us) :
    encode (decode ⟨bytes⟩) = ⟨bytes⟩ := by
  obtain ⟨codes, scalar, rfl⟩ := paired.exists_codes
  have spelled := shortest.eq_encodeUnits
  have units : units bytes = codes.flatMap unitsOf := by
    rw [spelled]
    exact units_flatMap_encodeUnit _
  have read : decode ⟨bytes⟩ = ofCodes codes := by
    rw [decode_eq]
    change ofCodes (joinUnits (Mutf8.units bytes)) = _
    rw [units, joinUnits_flatMap_unitsOf scalar]
  have codes : (ofCodes codes).runes.map Text.Rune.code = codes := (Text.runes_ofCodes scalar).1
  rw [read, encode_eq, spelled, flatMap_assoc]
  conv => rhs; rw [← codes, flatMap_map]

/-- UTF-8 and modified UTF-8 in its shortest form are two forms of the same texts. A text in UTF-8
that is written as modified UTF-8 is read back as it was; what is written holds no zero byte, and in
front of one it is scanned as its length and the number of UTF-16 units of the text. The other way
round, bytes that spell units in the shortest form, all surrogates in pairs, are written once more
as they were read. -/
theorem two_forms :
    (∀ s : Text, s.isUtf8 = true →
      decode (encode s) = s ∧ 0 ∉ (encode s).bytes ∧
      ∀ rest, scan ((encode s).bytes ++ 0 :: rest) = .ok ((encode s).length, s.unitCount)) ∧
    ∀ bytes us, Shortest bytes us → Paired us → encode (decode ⟨bytes⟩) = ⟨bytes⟩ := by
  refine ⟨fun s utf8 => ?_, fun _ _ shortest paired => encode_decode shortest paired⟩
  obtain ⟨us, shortest, count⟩ := shortest_encode s
  refine ⟨?_, shortest.zero_not_mem, fun rest => ?_⟩
  · rw [decode_encode_mended, Text.mended_eq utf8]
  · rw [shortest.scan_eq, count]
    rfl

/-- A letter, the null character and a code point that takes a pair. -/
theorem two_forms_pair :
    let s : Text := ⟨[97, 0, 0xf0, 0x9f, 0x98, 0x80]⟩
    let bytes : List UInt8 := [97, 0xc0, 0x80, 0xed, 0xa0, 0xbd, 0xed, 0xb8, 0x80]
    (decode (encode s) = s ∧ 0 ∉ (encode s).bytes ∧
      ∀ rest, scan ((encode s).bytes ++ 0 :: rest) = .ok ((encode s).length, s.unitCount)) ∧
    (encode s).bytes = bytes ∧ s.unitCount = 4 ∧ encode (decode ⟨bytes⟩) = ⟨bytes⟩ := by
  have shortest : Shortest [97, 0xc0, 0x80, 0xed, 0xa0, 0xbd, 0xed, 0xb8, 0x80]
      [97, 0, 0xd83d, 0xde00] :=
    .one rfl (by decide) <| .two (by decide) (by decide) rfl (by decide) <|
      .three (by decide) (by decide) (by decide) rfl (by decide) <|
      .three (by decide) (by decide) (by decide) rfl (by decide) .nil
  have paired : Paired [97, 0, 0xd83d, 0xde00] :=
    .single (by decide) <| .single (by decide) <| .pair (by decide) (by decide) .nil
  exact ⟨two_forms.1 ⟨[97, 0, 0xf0, 0x9f, 0x98, 0x80]⟩ (by with_unfolding_all decide), by with_unfolding_all decide,
    by with_unfolding_all decide, two_forms.2 _ _ shortest paired⟩

end Mutf8

end DexLift
