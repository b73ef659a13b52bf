import DexLift.Dex.File
import DexLift.Jvm.Pool
import DexLift.Proofs.Dex.ShortestForm

/-!
# Strings of a file as constants of a class

The strings of a file are kept as the bytes they were read as, and the constant
pool writes them once more as modified UTF-8. Both ends agree on a string exactly
when each of its units is written in the shortest form and is neither zero nor a
surrogate: such bytes are UTF-8 too. Every other string the scanner admits is
written with replacement characters in it.
-/

namespace DexLift

open List

namespace Mutf8

open Text (isScalar_iff ofCodes runesOf)

variable {bytes : List UInt8} {u : UInt16}

/-! ## Writing what was read -/

/-- Each unit is written in its shortest form, and is neither zero nor a surrogate. -/
def Faithful (bytes : List UInt8) : Prop :=
  (units bytes).flatMap encodeUnit = bytes ∧
    ∀ u ∈ units bytes, u ≠ 0 ∧ isHigh u = false ∧ isLow u = false

instance (bytes : List UInt8) : Decidable (Faithful bytes) :=
  @instDecidableAnd _ _ inferInstance (List.decidableBAll _ _)

theorem encodeUnit_eq_encodeRune (nonzero : u ≠ 0) (plain : isHigh u = false ∧ isLow u = false) :
    encodeUnit u = Text.encodeRune u.toNat := by
  have outside := (surrogate_iff u).not.mp (by simp [plain])
  have positive : u.toNat ≠ 0 := fun zero => nonzero (UInt16.toNat_inj.mp zero)
  have bound := u.toNat_lt
  have scalar : Text.isScalar u.toNat = true := by
    rw [isScalar_iff]
    omega
  rw [encodeUnit_eq, Text.encodeRune, if_pos scalar]
  dsimp only
  split
  next one => rw [if_pos one.2]
  next notOne =>
    have notLow : ¬ u.toNat < 0x80 := by omega
    rw [if_neg notLow]

theorem encode_eq_self_iff : (encode ⟨bytes⟩).bytes = bytes ↔ Faithful bytes := by
  constructor
  · intro same
    have plain := (length_encode ⟨bytes⟩).2.2 (congrArg length same)
    have read : units bytes = (runesOf bytes).flatMap fun rune => unitsOf rune.code := by
      conv => lhs; rw [← same, encode_eq]
      change units ((runesOf bytes).flatMap _) = _
      rw [← flatMap_assoc, units_flatMap_encodeUnit]
    refine ⟨?_, fun u member => ?_⟩
    · rw [read, flatMap_assoc]
      rwa [encode_eq] at same
    · rw [read] at member
      obtain ⟨rune, listed, member⟩ := mem_flatMap.mp member
      obtain ⟨nonzero, small⟩ := plain rune listed
      have scalar := (isScalar_iff _).mp (Text.isScalar_of_mem_runesOf listed)
      rw [unitsOf, if_pos small, mem_singleton] at member
      have value : u.toNat = rune.code := by
        rw [member, UInt16.toNat_ofNat', Nat.mod_eq_of_lt small]
      refine ⟨?_, ?_⟩
      · rintro rfl
        exact nonzero value.symm
      · rw [← Bool.not_eq_true, ← Bool.not_eq_true, ← not_or, surrogate_iff]
        omega
  · rintro ⟨spelled, plain⟩
    generalize units bytes = us at spelled plain
    have codes : ∀ c ∈ us.map UInt16.toNat, Text.isScalar c = true := by
      rw [forall_mem_map]
      intro u member
      have outside := (surrogate_iff u).not.mp (by simp [(plain u member).2])
      have bound := u.toNat_lt
      rw [isScalar_iff]
      omega
    have same : (⟨bytes⟩ : Text) = ofCodes (us.map UInt16.toNat) := by
      apply Text.ext
      change bytes = (us.map UInt16.toNat).flatMap Text.encodeRune
      rw [← spelled, flatMap_map]
      exact flatMap_congr fun u member =>
        encodeUnit_eq_encodeRune (plain u member).1 (plain u member).2
    have runes := (Text.runes_ofCodes codes).1
    rw [← same] at runes
    rw [encode_eq]
    calc (runesOf bytes).flatMap (fun rune => (unitsOf rune.code).flatMap encodeUnit)
        = ((runesOf bytes).map Text.Rune.code).flatMap (fun code =>
            (unitsOf code).flatMap encodeUnit) := by rw [flatMap_map]
      _ = us.flatMap fun u => (unitsOf u.toNat).flatMap encodeUnit :=
          (congrArg _ runes).trans (flatMap_map _ _ _)
      _ = us.flatMap encodeUnit := flatMap_congr fun u _ => by
          rw [unitsOf, if_pos u.toNat_lt, UInt16.ofNat_toNat, flatMap_singleton]
      _ = bytes := spelled

end Mutf8

namespace Dex

open Outcome (bind_ok mem_of_mapM)

namespace File

/-- The bytes of a string are string data of the file: they were scanned from some place on. -/
def HasString (f : File) (s : Text) : Prop :=
  ∃ start size units,
    Mutf8.scan (f.data.extract start f.data.size).data.toList = .ok (size, units) ∧
      s = ⟨(f.data.extract start f.data.size).data.toList.take size⟩

theorem hasString_of_readString {f : File} {number : Nat} {offset : UInt32} {s : Text}
    (read : f.readString number offset = .ok s) : f.HasString s := by
  unfold readString at read
  dsimp only at read
  split at read
  · cases read
  · obtain ⟨⟨units, start⟩, -, read⟩ := bind_ok.mp read
    dsimp only at read
    split at read
    · cases read
    next size found scanned =>
      split at read
      · cases read
      · cases read
        exact ⟨start, size, found, scanned, rfl⟩

end File

namespace File

theorem hasString_of_withStrings {f g : File} (read : f.withStrings = .ok g) {s : Text}
    (listed : s ∈ g.strings.toList) : g.HasString s := by
  obtain ⟨strings, table, done⟩ := bind_ok.mp read
  cases done
  obtain ⟨entries, each, done⟩ := bind_ok.mp table
  cases done
  obtain ⟨i, -, entry⟩ := mem_of_mapM each listed
  obtain ⟨offset, -, entry⟩ := bind_ok.mp entry
  exact hasString_of_readString entry

theorem hasString_of_open {data : ByteArray} {options : ReadOptions} {f : File}
    (opened : File.open data options = .ok f) {s : Text} (listed : s ∈ f.strings.toList) :
    f.HasString s := by
  unfold File.open at opened
  dsimp only at opened
  split at opened
  · cases opened
  split at opened
  · cases opened
  split at opened
  · cases opened
  obtain ⟨header, -, opened⟩ := bind_ok.mp opened
  obtain ⟨-, -, opened⟩ := bind_ok.mp opened
  obtain ⟨g, strings, opened⟩ := bind_ok.mp opened
  obtain ⟨h, types, protos⟩ := bind_ok.mp opened
  obtain ⟨_, -, same⟩ := bind_ok.mp types
  cases same
  obtain ⟨_, -, same⟩ := bind_ok.mp protos
  cases same
  exact hasString_of_withStrings strings listed

theorem body_utf8 (s : Text) : (Jvm.Constant.utf8 s).body =
    Jvm.u2OfNat (Mutf8.encode s).bytes.length ++ (Mutf8.encode s).bytes := rfl

/-- A string of a file that could be opened is string data of the file, and the constant pool
writes exactly these bytes if and only if each unit is in its shortest form and neither zero nor a
surrogate. -/
theorem constant_eq_data_iff {data : ByteArray} {options : ReadOptions} {f : File}
    (opened : File.open data options = .ok f) {s : Text} (listed : s ∈ f.strings.toList) :
    f.HasString s ∧
      ((Jvm.Constant.utf8 s).body = Jvm.u2OfNat s.length ++ s.bytes ↔ Mutf8.Faithful s.bytes) := by
  have here := hasString_of_open opened listed
  refine ⟨here, ?_⟩
  obtain ⟨start, size, units, scanned, rfl⟩ := here
  rw [← Mutf8.encode_eq_self_iff, body_utf8]
  constructor
  · intro written
    exact (append_inj written rfl).2
  · intro same
    rw [same, Text.length]

/-- A file with one string: a null character between two letters. -/
def nullBetween : ByteArray := ⟨#[
    100, 101, 120, 10, 48, 51, 53, 0, 20, 16, 132, 11, 209, 69, 40, 64, 247, 107, 151, 109, 223,
    156, 177, 250, 126, 171, 195, 145, 36, 43, 60, 158, 122, 0, 0, 0, 112, 0, 0, 0, 120, 86, 52,
    18, 0, 0, 0, 0, 0, 0, 0, 0, 0, 0, 0, 0, 1, 0, 0, 0, 112, 0, 0, 0, 0, 0, 0, 0, 0, 0, 0, 0, 0,
    0, 0, 0, 0, 0, 0, 0, 0, 0, 0, 0, 0, 0, 0, 0, 0, 0, 0, 0, 0, 0, 0, 0, 0, 0, 0, 0, 0, 0, 0, 0,
    6, 0, 0, 0, 116, 0, 0, 0, 116, 0, 0, 0, 3, 97, 192, 128, 98, 0]⟩

/-- The null character is written as two replacement characters. -/
theorem constant_eq_data_iff_null : ∃ f, File.open nullBetween {} = .ok f ∧
    ⟨[97, 192, 128, 98]⟩ ∈ f.strings.toList ∧ f.HasString ⟨[97, 192, 128, 98]⟩ ∧
    (Jvm.Constant.utf8 ⟨[97, 192, 128, 98]⟩).body ≠ Jvm.u2OfNat 4 ++ [97, 192, 128, 98] := by
  have read : (match File.open nullBetween {} with
      | .ok f => f.strings.toList
      | .error _ => []) = [⟨[97, 192, 128, 98]⟩] := by decide +kernel
  cases opened : File.open nullBetween {} with
  | error stop =>
    rw [opened] at read
    cases read
  | ok f =>
    rw [opened] at read
    have listed : ⟨[97, 192, 128, 98]⟩ ∈ f.strings.toList := by
      rw [show f.strings.toList = _ from read]
      exact mem_cons_self
    obtain ⟨here, iff⟩ := constant_eq_data_iff opened listed
    refine ⟨f, rfl, listed, here, ?_⟩
    intro same
    exact absurd (iff.mp same) (by decide)

end File

end Dex

end DexLift
