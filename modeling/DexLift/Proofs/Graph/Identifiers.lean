import DexLift.Graph.Dot
import Mathlib.Data.List.Chain

/-!
# Identifiers of drawn names

A name is drawn under an identifier in which a letter, a digit or an underscore stands for
itself and any other byte is an underscore with the byte's number in hexadecimal, in as few
digits as it takes. The underscore is not escaped and the number has no fixed width, so an
identifier can be read back only where no hexadecimal digit of the name stands behind an
underscore or behind a byte of one digit. Among the names where none does, different names have
different identifiers; and a name has its identifier for itself alone exactly when, besides, it
has no byte to escape at all.
-/

namespace DexLift.Graph

open List

variable {b c d : UInt8} {high low : UInt8} {front back rest : List UInt8} {name other : Text}

/-! ## Hexadecimal digits -/

/-- The number of a byte that is a hexadecimal digit in lower case. -/
def digit? (b : UInt8) : Option UInt8 :=
  if 48 ≤ b && b ≤ 57 then some (b - 48)
  else if 97 ≤ b && b ≤ 102 then some (b - 87)
  else none

theorem digit?_hexDigit : ∀ n < 16, digit? (Text.hexDigit n) = some (UInt8.ofNat n) := by
  decide

theorem low_of_digit (digit : digit? c = some d) :
    d < 16 ∧ isWordByte c = true ∧ c ≠ 95 ∧ Text.hexDigit d.toNat = c := by
  have all : ∀ n < 256, ∀ x ∈ digit? (UInt8.ofNat n), x < 16 ∧ isWordByte (UInt8.ofNat n) = true ∧
      UInt8.ofNat n ≠ 95 ∧ Text.hexDigit x.toNat = UInt8.ofNat n := by decide +kernel
  have here := all c.toNat c.toNat_lt
  rw [UInt8.ofNat_toNat] at here
  exact here d digit

theorem isWordByte_of_low (d : UInt8) (small : d < 16) : isWordByte d = false := by
  have all : ∀ n < 16, isWordByte (UInt8.ofNat n) = false := by decide
  have here := all d.toNat (UInt8.lt_iff_toNat_lt.mp small)
  rwa [UInt8.ofNat_toNat] at here

theorem hexDigits_of_low {n : Nat} (some : n ≠ 0) (small : n < 16) :
    Text.hexDigits n = [Text.hexDigit n] := by
  rw [Text.hexDigits, if_neg some, Nat.div_eq_of_lt small, Nat.mod_eq_of_lt small, Text.hexDigits,
    if_pos rfl, nil_append]

theorem bytes_hex_of_low (small : b < 16) :
    (Text.hex b.toNat 1).bytes = [Text.hexDigit b.toNat] := by
  unfold Text.hex Text.padLeft Text.length
  rcases Nat.eq_zero_or_pos b.toNat with zero | positive
  · rw [zero, Text.hexDigits, if_pos rfl]
    rfl
  · rw [hexDigits_of_low (Nat.ne_of_gt positive) (UInt8.lt_iff_toNat_lt.mp small)]
    rfl

theorem bytes_hex_of_high (large : ¬ b < 16) :
    (Text.hex b.toNat 1).bytes =
      [Text.hexDigit (b.toNat / 16), Text.hexDigit (b.toNat % 16)] := by
  have byte := b.toNat_lt
  rw [UInt8.lt_iff_toNat_lt, Nat.not_lt] at large
  have large : 16 ≤ b.toNat := large
  unfold Text.hex Text.padLeft Text.length
  rw [Text.hexDigits, if_neg (by omega), hexDigits_of_low (by omega) (by omega)]
  rfl

/-! ## What is written for a byte -/

/-- The forms that a byte of a name takes in its identifier. -/
inductive Spelled (b : UInt8) : List UInt8 → Prop where
  | word (isWord : isWordByte b = true) : Spelled b [b]
  | one {c : UInt8} (other : isWordByte b = false) (digit : digit? c = some b) : Spelled b [95, c]
  | two {c d high low : UInt8} (other : isWordByte b = false) (first : digit? c = some high)
      (second : digit? d = some low) (number : 16 * high + low = b) : Spelled b [95, c, d]

theorem spelled (b : UInt8) : Spelled b (identifierByte b) := by
  unfold identifierByte
  split
  next isWord => exact .word isWord
  next other =>
  have other : isWordByte b = false := eq_false_of_ne_true other
  by_cases small : b < 16
  · have digit := digit?_hexDigit b.toNat (UInt8.lt_iff_toNat_lt.mp small)
    rw [bytes_hex_of_low small]
    rw [UInt8.ofNat_toNat] at digit
    exact .one other digit
  · have byte := b.toNat_lt
    rw [bytes_hex_of_high small]
    refine .two other (digit?_hexDigit _ (by omega)) (digit?_hexDigit _ (by omega)) ?_
    apply UInt8.toNat_inj.mp
    simp only [UInt8.toNat_add, UInt8.toNat_mul, UInt8.toNat_ofNat', UInt8.reduceToNat]
    omega

theorem isWordByte_of_digit (digit : digit? c = some d) : isWordByte c = true :=
  (low_of_digit digit).2.1

/-- An identifier is made of bytes that stand for themselves. -/
theorem Spelled.isWord {bytes : List UInt8} (form : Spelled b bytes) :
    ∀ x ∈ bytes, isWordByte x = true := by
  cases form with
  | word isWord => exact forall_mem_singleton.mpr isWord
  | one _ digit =>
    exact forall_mem_cons.mpr ⟨rfl, forall_mem_singleton.mpr (isWordByte_of_digit digit)⟩
  | two _ first second _ =>
    exact forall_mem_cons.mpr ⟨rfl, forall_mem_cons.mpr
      ⟨isWordByte_of_digit first, forall_mem_singleton.mpr (isWordByte_of_digit second)⟩⟩

theorem Spelled.long {bytes : List UInt8} (form : Spelled b bytes)
    (escaped : isWordByte b = false) : 2 ≤ bytes.length := by
  cases form with
  | word isWord => cases isWord.symm.trans escaped
  | one => exact Nat.le_refl 2
  | two => exact Nat.le_succ 2

/-- The first byte is a digit only where the name has it. -/
theorem Spelled.head {bytes : List UInt8} (form : Spelled b bytes) (plain : digit? b = none) :
    ∃ x more, bytes = x :: more ∧ digit? x = none := by
  cases form with
  | word => exact ⟨b, [], rfl, plain⟩
  | one | two => exact ⟨95, _, rfl, rfl⟩

/-- What stands for itself is written as it is. -/
theorem flatMap_of_word {bytes : List UInt8} (words : ∀ x ∈ bytes, isWordByte x = true) :
    bytes.flatMap identifierByte = bytes := by
  refine (flatMap_congr fun x member => ?_).trans (flatMap_singleton' bytes)
  exact if_pos (words x member)

theorem identifier_eq_iff_flatMap : identifier name = identifier other ↔
    name.bytes.flatMap identifierByte = other.bytes.flatMap identifierByte :=
  ⟨fun same => append_cancel_left (congrArg Text.bytes same), fun same =>
    congrArg (fun bytes : List UInt8 => "n_" ++ (⟨bytes⟩ : Text)) same⟩

/-! ## Reading an identifier back -/

/-- Reads a name back from its identifier, where digits belong to an underscore in front of them. -/
def unescape : List UInt8 → List UInt8
  | [] => []
  | b :: rest =>
    if b = 95 then
      match rest with
      | [] => [b]
      | c :: more =>
        match digit? c with
        | none => b :: unescape (c :: more)
        | some high =>
          match more with
          | [] => [high]
          | d :: more =>
            match digit? d with
            | none => high :: unescape (d :: more)
            | some low => (16 * high + low) :: unescape more
    else b :: unescape rest

/-- No digit comes first. -/
def NoDigitFirst (bytes : List UInt8) : Prop := ∀ c ∈ bytes.head?, digit? c = none

theorem unescape_underscore (apart : NoDigitFirst rest) :
    unescape (95 :: rest) = 95 :: unescape rest := by
  cases rest with
  | nil => rfl
  | cons c more =>
    rw [unescape, if_pos rfl]
    simp only [apart c rfl]

theorem unescape_one (digit : digit? c = some high) (apart : NoDigitFirst rest) :
    unescape (95 :: c :: rest) = high :: unescape rest := by
  cases rest with
  | nil =>
    unfold unescape
    simp only [if_true, digit]
  | cons d more =>
    rw [unescape, if_pos rfl]
    simp only [digit, apart d rfl]

theorem unescape_two (first : digit? c = some high) (second : digit? d = some low) :
    unescape (95 :: c :: d :: rest) = (16 * high + low) :: unescape rest := by
  rw [unescape, if_pos rfl]
  simp only [first, second]

/-- Whether a digit behind this byte could be taken for one of an escape. -/
def isOpen (b : UInt8) : Bool := b == 95 || b < 16

/-- No digit of the name stands where it could be taken for one of an escape. -/
def IsReadable (name : Text) : Prop :=
  name.bytes.IsChain fun b c => isOpen b = true → digit? c = none

theorem noDigitFirst_flatMap {bytes : List UInt8} (apart : NoDigitFirst bytes) :
    NoDigitFirst (bytes.flatMap identifierByte) := by
  cases bytes with
  | nil => exact fun c none => nomatch none
  | cons c more =>
    obtain ⟨x, tail, written, plain⟩ := (spelled c).head (apart c rfl)
    rw [flatMap_cons, written]
    intro y first
    cases first
    exact plain

theorem unescape_spelled {bytes : List UInt8} (form : Spelled b bytes)
    (apart : isOpen b = true → NoDigitFirst rest) :
    unescape (bytes ++ rest) = b :: unescape rest := by
  cases form with
  | word isWord =>
    by_cases underscore : b = 95
    · subst underscore
      exact unescape_underscore (apart rfl)
    · rw [singleton_append, unescape.eq_def]
      exact if_neg underscore
  | one _ digit =>
    have small := (low_of_digit digit).1
    exact unescape_one digit (apart (Bool.or_eq_true_iff.mpr (.inr (decide_eq_true small))))
  | two _ first second number =>
    rw [← number]
    exact unescape_two first second

/-- The names of readable identifiers are what is read from them. -/
theorem unescape_flatMap (readable : IsReadable name) :
    unescape (name.bytes.flatMap identifierByte) = name.bytes := by
  obtain ⟨bytes⟩ := name
  unfold IsReadable at readable
  induction bytes with
  | nil => rfl
  | cons b rest ih =>
    obtain ⟨apart, later⟩ := isChain_cons.mp readable
    rw [flatMap_cons, unescape_spelled (spelled b), ih later]
    exact fun opens => noDigitFirst_flatMap fun c first => apart c first opens

theorem identifier_inj (readable : IsReadable name) (readable' : IsReadable other) :
    identifier name = identifier other ↔ name = other := by
  refine ⟨fun same => Text.ext ?_, congrArg identifier⟩
  have written := congrArg unescape (identifier_eq_iff_flatMap.mp same)
  rwa [unescape_flatMap readable, unescape_flatMap readable'] at written

/-! ## Names that share their identifier -/

/-- A name with an escape shares its identifier with the one that spells the escape out. -/
theorem exists_other_of_escape (member : b ∈ name.bytes) (escaped : isWordByte b = false) :
    ∃ other, identifier other = identifier name ∧ other ≠ name := by
  obtain ⟨front, back, split⟩ := append_of_mem member
  refine ⟨⟨front ++ identifierByte b ++ back⟩, identifier_eq_iff_flatMap.mpr ?_, fun same => ?_⟩
  · rw [split]
    simp only [flatMap_append, flatMap_cons, flatMap_of_word (spelled b).isWord, append_assoc]
  · have sizes := congrArg (length ∘ Text.bytes) same
    have long := (spelled b).long escaped
    simp only [Function.comp_apply, split, length_append, length_cons] at sizes
    omega

/-- A name in which a digit stands behind an underscore shares its identifier with the one that has
the byte of this digit. -/
theorem exists_other_of_digit (split : name.bytes = front ++ 95 :: c :: back)
    (digit : digit? c = some d) : ∃ other, identifier other = identifier name ∧ other ≠ name := by
  obtain ⟨small, isWord, -, written⟩ := low_of_digit digit
  have escaped : isWordByte d = false := isWordByte_of_low d small
  refine ⟨⟨front ++ d :: back⟩, identifier_eq_iff_flatMap.mpr ?_, fun same => ?_⟩
  · have first : identifierByte d = [95, c] := by
      rw [identifierByte, if_neg (Bool.eq_false_iff.mp escaped), bytes_hex_of_low small, written]
    have second : identifierByte c = [c] := if_pos isWord
    rw [split]
    simp only [flatMap_append, flatMap_cons, first, second]
    rfl
  · have sizes := congrArg (length ∘ Text.bytes) same
    simp only [Function.comp_apply, split, length_append, length_cons] at sizes
    omega

/-- What an escape leaves in an identifier. -/
theorem Spelled.opens {bytes : List UInt8} (form : Spelled b bytes)
    (escaped : isWordByte b = false) : ∃ c d more, bytes = 95 :: c :: more ∧ digit? c = some d := by
  cases form with
  | word isWord => cases isWord.symm.trans escaped
  | one _ digit => exact ⟨_, _, _, rfl, digit⟩
  | two _ first _ _ => exact ⟨_, _, _, rfl, first⟩

/-- A name of nothing but bytes that stand for themselves is its identifier, and if it is readable
no other name is. -/
theorem eq_of_identifier_eq (words : ∀ b ∈ name.bytes, isWordByte b = true)
    (readable : IsReadable name) (same : identifier other = identifier name) : other = name := by
  have written := identifier_eq_iff_flatMap.mp same
  rw [flatMap_of_word words] at written
  refine Text.ext ?_
  rw [← written, flatMap_of_word]
  intro b member
  by_contra escaped
  obtain ⟨front, back, split⟩ := append_of_mem member
  obtain ⟨c, d, more, opens, digit⟩ := (spelled b).opens (eq_false_of_ne_true escaped)
  rw [split, flatMap_append, flatMap_cons, opens] at written
  have apart := isChain_iff_forall_rel_of_append_cons_cons.mp readable written.symm rfl
  cases apart.symm.trans digit

/-- Different names have different identifiers where both can be read back, and a name has its
identifier for itself alone exactly when it can be read back and needs no escape. -/
theorem identifier_tells_apart (name other : Text) :
    (IsReadable name ∧ IsReadable other → (identifier name = identifier other ↔ name = other)) ∧
      ((∀ twin, identifier twin = identifier name → twin = name) ↔
        IsReadable name ∧ ∀ b ∈ name.bytes, isWordByte b = true) := by
  refine ⟨fun both => identifier_inj both.1 both.2, fun alone => ?_, fun own other =>
    eq_of_identifier_eq own.2 own.1⟩
  have words : ∀ b ∈ name.bytes, isWordByte b = true := by
    intro b member
    by_contra escaped
    obtain ⟨other, same, differs⟩ := exists_other_of_escape member (eq_false_of_ne_true escaped)
    exact differs (alone other same)
  refine ⟨isChain_iff_forall_rel_of_append_cons_cons.mpr ?_, words⟩
  intro b c front back split opens
  by_contra digit
  obtain ⟨d, digit⟩ := Option.ne_none_iff_exists'.mp digit
  have isWord := words b (split ▸ mem_append_right front mem_cons_self)
  have underscore : b = 95 := by
    rcases Bool.or_eq_true_iff.mp opens with underscore | small
    · exact beq_iff_eq.mp underscore
    · exact absurd isWord (Bool.eq_false_iff.mp (isWordByte_of_low b (of_decide_eq_true small)))
  subst underscore
  obtain ⟨other, same, differs⟩ := exists_other_of_digit split digit
  exact differs (alone other same)

/-- Two classes, one in a package and one whose name spells the slash out, are drawn as one node. -/
theorem identifier_shared :
    identifier "A/b.c()V" = identifier "A_2fb.c()V" ∧ ("A/b.c()V" : Text) ≠ "A_2fb.c()V" := by
  refine ⟨?_, by decide⟩
  decide +kernel

end DexLift.Graph
