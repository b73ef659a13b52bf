import DexLift.Proofs.Dex.Leb128

/-!
# Which bytes are read as a number

A number of 32 bits is read from every spelling of it that has at most five bytes, the
shortest one or a longer one, whatever follows. Five bytes that all say that more follow
are too many, and data that end behind fewer of them end too early.
-/

namespace DexLift.Dex

open List

/-! ## Spellings that go on -/

/-- Bytes that all say that more follow. -/
def Unended (bytes : List UInt8) : Prop := ∀ b ∈ bytes, 128 ≤ b.toNat

/-- Some bytes spell a number, without a sign or with one. -/
def IsLeb128 (bytes : List UInt8) : Prop := (∃ n, Leb128 bytes n) ∨ ∃ n, Sleb128 bytes n

section Spelled

variable {b : UInt8} {bytes front rest : List UInt8}

theorem IsLeb128.tail (spelled : IsLeb128 (b :: bytes)) (more : bytes ≠ []) :
    128 ≤ b.toNat ∧ IsLeb128 bytes := by
  rcases spelled with ⟨_, unsigned⟩ | ⟨_, signed⟩
  · cases unsigned with
    | last => exact absurd rfl more
    | more continues rest => exact ⟨continues, .inl ⟨_, rest⟩⟩
  · cases signed with
    | last => exact absurd rfl more
    | more continues rest => exact ⟨continues, .inr ⟨_, rest⟩⟩

theorem IsLeb128.unended (spelled : IsLeb128 (front ++ rest)) (more : rest ≠ []) :
    Unended front := by
  induction front with
  | nil => exact forall_mem_nil _
  | cons b front ih =>
    obtain ⟨continues, later⟩ := spelled.tail (append_ne_nil_of_right_ne_nil front more)
    exact forall_mem_cons.mpr ⟨continues, ih later⟩

theorem IsLeb128.unended_take (spelled : IsLeb128 bytes) (long : 5 < bytes.length) :
    Unended (bytes.take 5) := by
  have more : bytes.drop 5 ≠ [] := by
    rw [Ne, drop_eq_nil_iff]
    exact Nat.not_le.mpr long
  rw [← take_append_drop 5 bytes] at spelled
  exact spelled.unended more

end Spelled

namespace Read

/-! ## The loop over groups -/

theorem byte_of_end {c : Cursor} (nothing : ¬ c.pos < c.data.size) :
    byte c = (Outcome.fail .endOfData, c) :=
  dif_neg nothing

namespace ReadsGroups

variable {loop : Nat → UInt32 → UInt32 → Read UInt32} {shift sum : UInt32} {bytes : List UInt8}
  {c : Cursor} {left : Nat}

section

variable (loops : ReadsGroups loop) (unended : Unended bytes)

include loops unended

theorem goes_on (ahead : c.Ahead bytes)
    (left : Nat) :
    ∃ shift' sum', loop (bytes.length + left) shift sum c =
      loop left shift' sum' (c.past bytes.length) := by
  induction bytes generalizing shift sum c with
  | nil => exact ⟨shift, sum, by rw [length_nil, Nat.zero_add]; rfl⟩
  | cons b bytes ih =>
    obtain ⟨continues, later⟩ := forall_mem_cons.mp unended
    obtain ⟨last, shift', sum', unfolded⟩ := loops.group (bytes.length + left) shift sum
    have both : c.Ahead ([b] ++ bytes) := ahead
    have first : byte c = (.ok b, c.past 1) := Takes.byte b c both.left
    have behind : (c.past 1).Ahead bytes := both.right
    have other : ¬ b &&& 0x80 = 0 := mt (last_iff b).mp (Nat.not_lt.mpr continues)
    obtain ⟨shift'', sum'', rest⟩ := ih later behind
    refine ⟨shift'', sum'', ?_⟩
    rw [length_cons, Nat.add_right_comm, unfolded, bind_of_ok first, if_neg other, rest,
      Cursor.past_past, Nat.add_comm 1]

theorem too_long (ahead : c.Ahead bytes) :
    loop bytes.length shift sum c = (Outcome.fail .longLeb128, c.past bytes.length) := by
  obtain ⟨shift', sum', gone⟩ := loops.goes_on unended ahead 0
  rw [Nat.add_zero] at gone
  rw [gone, loops.full]
  rfl

theorem too_short (all : c.data.data.toList.drop c.pos = bytes) (few : bytes.length < left) :
    loop left shift sum c = (Outcome.fail .endOfData, c.past bytes.length) := by
  obtain ⟨more, rfl⟩ := Nat.exists_eq_add_of_lt few
  have ahead : c.Ahead bytes := all ▸ prefix_rfl
  have ended : ¬ (c.past bytes.length).pos < (c.past bytes.length).data.size := by
    have length := congrArg length all
    have size : c.data.data.toList.length = c.data.size := rfl
    rw [length_drop, size] at length
    change ¬ c.pos + bytes.length < c.data.size
    omega
  obtain ⟨shift', sum', gone⟩ := loops.goes_on unended ahead (more + 1)
  obtain ⟨last, _, _, unfolded⟩ := loops.group more shift' sum'
  rw [Nat.add_assoc, gone, unfolded, bind_of_error (byte_of_end ended)]
  rfl

end

end ReadsGroups

/-! ## The three ways to read a number -/

/-- No way to read a number finds one here. -/
structure NoNumber (c : Cursor) (cause : Cause) (count : Nat) : Prop where
  unsigned : uleb128 c = (Outcome.fail cause, c.past count)
  signed : sleb128 c = (Outcome.fail cause, c.past count)
  lessOne : uleb128p1 c = (Outcome.fail cause, c.past count)

theorem noNumber_of_loops {c : Cursor} {cause : Cause} {count : Nat}
    (refused : ∀ loop, ReadsGroups loop → loop 5 0 0 c = (Outcome.fail cause, c.past count)) :
    NoNumber c cause count := by
  have unsigned : uleb128 c = (Outcome.fail cause, c.past count) := refused _ readsGroups_ulebFrom
  refine ⟨unsigned, ?_, ?_⟩
  · rw [sleb128, bind_of_error (refused _ readsGroups_slebFrom)]
    rfl
  · rw [uleb128p1, bind_of_error unsigned]
    rfl

theorem uleb128p1_takes {bytes : List UInt8} {v : UInt32} (takes : uleb128.Takes bytes v) :
    uleb128p1.Takes bytes ((v.toNat : Int) - 1) :=
  takes.bind_nil (.pure _)

/-- Every spelling of a number with at most five bytes is read as this number, as far as 32 bits
hold it, and as the number less one where it may be absent; the cursor moves on by the length of
the spelling, whatever follows. A number with more bytes is too long, and data that end in one of
the first five bytes of a number end too early. -/
theorem leb128_exact (c : Cursor) :
    (∀ (v : UInt32) (n : Nat) (bytes : List UInt8), Leb128 bytes n → n % 2 ^ 32 = v.toNat →
      bytes.length ≤ 5 → c.Ahead bytes →
        uleb128 c = (.ok v, c.past bytes.length) ∧
        uleb128p1 c = (.ok ((v.toNat : Int) - 1), c.past bytes.length)) ∧
    (∀ (v : Int32) (n : Int) (bytes : List UInt8), Sleb128 bytes n →
      Int.bmod n (2 ^ 32) = v.toInt → bytes.length ≤ 5 → c.Ahead bytes →
        sleb128 c = (.ok v, c.past bytes.length)) ∧
    (∀ bytes : List UInt8, IsLeb128 bytes → 5 < bytes.length → c.Ahead (bytes.take 5) →
      NoNumber c .longLeb128 5) ∧
    ∀ front rest : List UInt8, IsLeb128 (front ++ rest) → rest ≠ [] → front.length < 5 →
      c.data.data.toList.drop c.pos = front → NoNumber c .endOfData front.length := by
  refine ⟨?_, ?_, ?_, ?_⟩
  · intro v n bytes spelled value short ahead
    have same : UInt32.ofNat n = v := by rw [← UInt32.toNat_inj, UInt32.toNat_ofNat', value]
    have takes := uleb128_takes spelled short
    rw [same] at takes
    exact ⟨takes c ahead, uleb128p1_takes takes c ahead⟩
  · intro v n bytes spelled value short ahead
    have same : Int32.ofInt n = v := Int32.toInt_inj.mp (Int32.toInt_ofInt.trans value)
    have takes := sleb128_takes spelled short
    rw [same] at takes
    exact takes c ahead
  · intro bytes spelled long ahead
    have five : (bytes.take 5).length = 5 := length_take_of_le long.le
    refine noNumber_of_loops fun loop loops => ?_
    have refused : loop (bytes.take 5).length 0 0 c = _ :=
      loops.too_long (spelled.unended_take long) ahead
    rwa [five] at refused
  · intro front rest spelled more few all
    exact noNumber_of_loops fun loop loops => loops.too_short (spelled.unended more) all few

/-- The number 624485 in five bytes, -128 with another number behind it, a number of six bytes,
and the first two bytes of a number. -/
theorem leb128_exact_padded :
    (uleb128 ⟨⟨#[0xe5, 0x8e, 0xa6, 0x80, 0x00, 0x80]⟩, 0⟩).1 = .ok 624485 ∧
    (sleb128 ⟨⟨#[0x2a, 0x80, 0x7f, 0x01]⟩, 1⟩).1 = .ok (-128) ∧
    NoNumber ⟨⟨#[0x81, 0x80, 0x80, 0x80, 0x80, 0x00]⟩, 0⟩ .longLeb128 5 ∧
    NoNumber ⟨⟨#[0x2a, 0xe5, 0x8e]⟩, 1⟩ .endOfData 2 := by
  have padded : Leb128 [0xe5, 0x8e, 0xa6, 0x80, 0x00] 624485 :=
    .more (by decide) <| .more (by decide) <| .more (by decide) <| .more (by decide) <|
      .last (by decide)
  have negative : Sleb128 [0x80, 0x7f] (-128) := .more (by decide) (.last (by decide))
  have long : Leb128 [0x81, 0x80, 0x80, 0x80, 0x80, 0x00] 1 :=
    .more (by decide) (.more (by decide) (.more (by decide) (.more (by decide) (.more (by decide)
      (.last (by decide))))))
  have whole : Leb128 ([0xe5, 0x8e] ++ [0x26]) 624485 :=
    .more (by decide) (.more (by decide) (.last (by decide)))
  refine ⟨?_, ?_, ?_, ?_⟩
  · rw [((leb128_exact _).1 624485 _ _ padded (by decide) (by decide) ⟨[0x80], rfl⟩).1]
  · rw [(leb128_exact _).2.1 (-128) _ _ negative (by decide) (by decide) ⟨[0x01], rfl⟩]
  · exact (leb128_exact _).2.2.1 _ (.inl ⟨_, long⟩) (by decide) ⟨[0x00], rfl⟩
  · exact (leb128_exact _).2.2.2 _ _ (.inl ⟨_, whole⟩) (by decide) (by decide) rfl

end Read

end DexLift.Dex
