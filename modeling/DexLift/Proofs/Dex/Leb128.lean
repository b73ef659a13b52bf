import DexLift.Proofs.Dalvik.Encoding
import DexLift.Proofs.Dex.Collecting
import DexLift.Proofs.Dex.StringTable

/-!
# Reads that take what lies ahead

What a read gives often depends on nothing but the bytes it goes over. A read takes
some bytes for a value when it gives that value wherever these bytes lie ahead, and
leaves the cursor right behind them. Reads that take bytes one after another take
them all.
-/

namespace DexLift.Dex

open List Read

namespace Cursor

/-- The cursor some bytes further on. -/
def past (c : Cursor) (count : Nat) : Cursor := { c with pos := c.pos + count }

/-- Some bytes are the next ones. -/
def Ahead (c : Cursor) (bytes : List UInt8) : Prop := bytes <+: c.data.data.toList.drop c.pos

variable {c : Cursor} {first second bytes : List UInt8} {b : UInt8}

theorem Ahead.left (ahead : c.Ahead (first ++ second)) : c.Ahead first :=
  (prefix_append first second).trans ahead

theorem Ahead.right (ahead : c.Ahead (first ++ second)) : (c.past first.length).Ahead second := by
  obtain ⟨rest, equal⟩ := ahead
  refine ⟨rest, ?_⟩
  change _ = c.data.data.toList.drop (c.pos + first.length)
  rw [← drop_drop, ← equal, append_assoc, drop_left]

theorem Ahead.append (ahead : c.Ahead first) (behind : (c.past first.length).Ahead second) :
    c.Ahead (first ++ second) := by
  obtain ⟨rest, equal⟩ := ahead
  obtain ⟨rest', equal'⟩ := behind
  change _ = c.data.data.toList.drop (c.pos + first.length) at equal'
  rw [← drop_drop, ← equal, drop_left] at equal'
  exact ⟨rest', by rw [append_assoc, equal', equal]⟩

theorem Ahead.length_le (ahead : c.Ahead bytes) : bytes.length ≤ c.remaining := by
  have short := List.IsPrefix.length_le ahead
  rwa [length_drop] at short

theorem Ahead.byte_eq (ahead : c.Ahead (b :: bytes)) :
    ∃ inside : c.pos < c.data.size, c.data[c.pos] = b := by
  obtain ⟨rest, equal⟩ := ahead
  have here : c.data.data.toList[c.pos]? = some b := by
    have head := congrArg List.head? equal
    rw [head?_drop] at head
    exact head.symm
  obtain ⟨inside, found⟩ := List.getElem?_eq_some_iff.mp here
  exact ⟨inside, found⟩

theorem past_past (c : Cursor) (m n : Nat) : (c.past m).past n = c.past (m + n) := by
  simp only [past, Nat.add_assoc]

end Cursor

namespace Read

/-- Wherever the bytes lie ahead, the read gives the value and ends right behind them. -/
def Takes {α : Type} (read : Read α) (bytes : List UInt8) (a : α) : Prop :=
  ∀ c : Cursor, c.Ahead bytes → read c = (.ok a, c.past bytes.length)

namespace Takes

variable {α β : Type} {first : Read α} {next : α → Read β} {read : Read α} {a : α} {b : β}
  {xs : List α} {as bs : List UInt8} {n : Nat}

theorem pure (a : α) : (Pure.pure a : Read α).Takes [] a := fun _ _ => rfl

theorem lift {outcome : Outcome α} (found : outcome = .ok a) : (lift outcome).Takes [] a := by
  intro c _
  rw [Read.lift, found]
  rfl

theorem bind (takes : first.Takes as a) (behind : (next a).Takes bs b) :
    (first >>= next).Takes (as ++ bs) b := by
  intro c ahead
  rw [bind_of_ok (takes c ahead.left), behind _ ahead.right, Cursor.past_past, length_append]

theorem bind_nil (takes : first.Takes as a) (behind : (next a).Takes [] b) :
    (first >>= next).Takes as b := by
  have both := takes.bind behind
  rwa [append_nil] at both

theorem byte (b : UInt8) : byte.Takes [b] b := by
  intro c ahead
  obtain ⟨inside, found⟩ := ahead.byte_eq
  rw [Read.byte, dif_pos inside, found]
  rfl

theorem bytes (some : as ≠ []) : (bytes as.length).Takes as as := by
  intro c ahead
  have positive := length_pos_iff.mpr some
  have short := ahead.length_le
  unfold Cursor.remaining at short
  have inside : ¬ ((as.length : Int) < 0 ∨ c.pos + (as.length : Int) > c.data.size) := by omega
  have stop : c.pos + (as.length : Int).toNat = c.pos + as.length := rfl
  have found : (c.data.extract c.pos (c.pos + as.length)).data.toList = as := by
    rw [ByteArray.data_extract, Array.toList_extract, extract_eq_take_drop, Nat.add_sub_cancel_left]
    exact (prefix_iff_eq_take.mp ahead).symm
  rw [Read.bytes, if_neg inside, stop]
  exact congrArg (fun taken => (Except.ok taken, c.past as.length)) found

theorem times_zero : (times read 0).Takes [] [] := pure []

theorem times_succ (takes : read.Takes as a) (rest : (times read n).Takes bs xs) :
    (times read (n + 1)).Takes (as ++ bs) (a :: xs) :=
  takes.bind (rest.bind_nil (pure (a :: xs)))

theorem of_not {p : Prop} [Decidable p] {refusal : Read α} (passes : ¬ p)
    (takes : read.Takes as a) : (if p then refusal else read).Takes as a := by
  rwa [if_neg passes]

theorem within (takes : read.Takes as a) (few : n ≤ as.length) :
    (do if n > (← remaining) then fail .endOfData else read).Takes as a := by
  intro c ahead
  have enough : ¬ n > c.remaining := Nat.not_lt.mpr (le_trans few ahead.length_le)
  have left : remaining c = (.ok c.remaining, c) := rfl
  rw [bind_of_ok left, if_neg enough, takes c ahead]

end Takes

theorem byte_eq_ok {c after : Cursor} {b : UInt8} (done : byte c = (.ok b, after)) :
    c.Ahead [b] ∧ after = c.past 1 := by
  unfold byte at done
  split at done
  next inside =>
    cases done
    have here : c.pos < c.data.data.toList.length := inside
    refine ⟨⟨c.data.data.toList.drop (c.pos + 1), ?_⟩, rfl⟩
    rw [drop_eq_getElem_cons here]
    rfl
  · cases done

end Read

end DexLift.Dex

/-!
# LEB128 numbers

A number is spelled in groups of seven bits, the lowest first, one to a byte; the
upper bit of a byte says that more follow. A signed number has the sign in its last
group. There are longer spellings than the shortest one. Whatever the spelling, five
bytes of it are read as the number, modulo what 32 bits can hold, and what is read
without a failure was spelled that way.
-/

namespace DexLift.Dex

/-- Bytes that spell an unsigned number. -/
inductive Leb128 : List UInt8 → Nat → Prop where
  | last {b : UInt8} (ends : b.toNat < 128) : Leb128 [b] b.toNat
  | more {b : UInt8} {bytes : List UInt8} {n : Nat} (continues : 128 ≤ b.toNat)
    (rest : Leb128 bytes n) : Leb128 (b :: bytes) (b.toNat % 128 + 128 * n)

/-- Bytes that spell a signed number. -/
inductive Sleb128 : List UInt8 → Int → Prop where
  | last {b : UInt8} (ends : b.toNat < 128) : Sleb128 [b] (Int.bmod b.toNat 128)
  | more {b : UInt8} {bytes : List UInt8} {n : Int} (continues : 128 ≤ b.toNat)
    (rest : Sleb128 bytes n) : Sleb128 (b :: bytes) ((b.toNat % 128 : Nat) + 128 * n)

theorem exists_leb128 (count : Nat) {n : Nat} (small : n < 128 ^ (count + 1)) :
    ∃ bytes, Leb128 bytes n ∧ bytes.length ≤ count + 1 := by
  induction count generalizing n with
  | zero =>
    have here : (UInt8.ofNat n).toNat = n :=
      UInt8.toNat_ofNat_of_lt' (lt_trans small (by decide))
    refine ⟨[UInt8.ofNat n], ?_, by simp⟩
    have spelled := Leb128.last (b := UInt8.ofNat n) (by omega)
    rwa [here] at spelled
  | succ count ih =>
    have smaller : n / 128 < 128 ^ (count + 1) := by
      rwa [Nat.div_lt_iff_lt_mul (by decide), ← Nat.pow_succ]
    obtain ⟨bytes, rest, length⟩ := ih smaller
    have byte : n % 128 + 128 < UInt8.size := Nat.add_lt_add_right (Nat.mod_lt n (by decide)) 128
    have here := UInt8.toNat_ofNat_of_lt' byte
    have spelled := Leb128.more (b := UInt8.ofNat (n % 128 + 128)) (by omega) rest
    rw [here, Nat.add_mod_right, Nat.mod_mod, Nat.mod_add_div] at spelled
    exact ⟨_, spelled, by simpa using length⟩

namespace Read

/-! ## One group -/

theorem last_iff : ∀ b : UInt8, b &&& 0x80 = 0 ↔ b.toNat < 128 := forall_byte (by decide +kernel)

theorem sign_iff : ∀ b : UInt8, (b &&& 0x40 != 0) = true ↔ 64 ≤ b.toNat % 128 :=
  forall_byte (by decide +kernel)

theorem toNat_group (b : UInt8) : (b &&& 0x7f).toUInt32.toNat = b.toNat % 128 := by
  rw [UInt8.toNat_toUInt32, UInt8.toNat_and]
  exact Nat.and_two_pow_sub_one_eq_mod _ 7

theorem toNat_or_shiftLeft {low shift : UInt32} (x : UInt32) (inside : shift.toNat < 32)
    (small : low.toNat < 2 ^ shift.toNat) :
    (low ||| x <<< shift).toNat = (low.toNat + 2 ^ shift.toNat * x.toNat) % 2 ^ 32 := by
  have power : 2 ^ 32 = 2 ^ shift.toNat * 2 ^ (32 - shift.toNat) := by
    rw [← Nat.pow_add]
    congr 1
    omega
  have kept : x.toNat % 2 ^ (32 - shift.toNat) < 2 ^ (32 - shift.toNat) :=
    Nat.mod_lt _ (Nat.two_pow_pos _)
  have shifted : (x <<< shift).toNat = 2 ^ shift.toNat * (x.toNat % 2 ^ (32 - shift.toNat)) := by
    rw [UInt32.toNat_shiftLeft, Nat.mod_eq_of_lt inside, Nat.shiftLeft_eq, Nat.mul_comm]
    conv => lhs; rw [power]
    exact Nat.mul_mod_mul_left ..
  have bound : low.toNat + 2 ^ shift.toNat * (x.toNat % 2 ^ (32 - shift.toNat)) < 2 ^ 32 := by
    rw [power]
    calc low.toNat + 2 ^ shift.toNat * (x.toNat % 2 ^ (32 - shift.toNat))
        < 2 ^ shift.toNat * (x.toNat % 2 ^ (32 - shift.toNat) + 1) := by
          rw [Nat.mul_succ, Nat.add_comm]
          exact Nat.add_lt_add_left small _
      _ ≤ 2 ^ shift.toNat * 2 ^ (32 - shift.toNat) := Nat.mul_le_mul_left _ kept
  have whole : low.toNat + 2 ^ shift.toNat * x.toNat =
      low.toNat + 2 ^ shift.toNat * (x.toNat % 2 ^ (32 - shift.toNat)) +
        2 ^ 32 * (x.toNat / 2 ^ (32 - shift.toNat)) := by
    rw [power, Nat.add_assoc, Nat.mul_assoc, ← Nat.mul_add, Nat.mod_add_div]
  rw [UInt32.toNat_or, shifted, Nat.or_comm, ← Nat.two_pow_add_eq_or_of_lt small, Nat.add_comm,
    whole, Nat.add_mul_mod_self_left, Nat.mod_eq_of_lt bound]

/-! ## The loop over groups -/

/-- A loop over groups of bits: it ends at a byte that says so, and refuses a byte too many. -/
structure ReadsGroups (loop : Nat → UInt32 → UInt32 → Read UInt32) : Prop where
  full : ∀ shift sum, loop 0 shift sum = fail .longLeb128
  group : ∀ left shift sum, ∃ (last : UInt8 → UInt32) (shift' : UInt32) (sum' : UInt8 → UInt32),
    loop (left + 1) shift sum = do
      let b ← byte
      if b &&& 0x80 = 0 then return last b
      loop left shift' (sum' b)

theorem readsGroups_ulebFrom : ReadsGroups ulebFrom :=
  ⟨fun _ _ => rfl, fun _ _ _ => ⟨_, _, _, rfl⟩⟩

theorem readsGroups_slebFrom : ReadsGroups slebFrom :=
  ⟨fun _ _ => rfl, fun _ _ _ => ⟨_, _, _, rfl⟩⟩

/-! ## Reading what is spelled -/

section Taking

variable {bytes : List UInt8} {left : Nat} {shift sum : UInt32}

theorem group_step (b : UInt8) (room : shift.toNat + 7 * (left + 1) = 35)
    (small : sum.toNat < 2 ^ shift.toNat) :
    (sum ||| (b &&& 0x7f).toUInt32 <<< shift).toNat =
        (sum.toNat + 2 ^ shift.toNat * (b.toNat % 128)) % 2 ^ 32 ∧
      (sum ||| (b &&& 0x7f).toUInt32 <<< shift).toNat < 2 ^ (shift + 7).toNat ∧
      (shift + 7).toNat = shift.toNat + 7 := by
  have next : (shift + 7).toNat = shift.toNat + 7 := by
    rw [UInt32.toNat_add]
    exact Nat.mod_eq_of_lt (by change shift.toNat + 7 < _; omega)
  have equal := toNat_or_shiftLeft (b &&& 0x7f).toUInt32 (by omega) small
  rw [toNat_group] at equal
  refine ⟨equal, ?_, next⟩
  have group : b.toNat % 128 < 128 := Nat.mod_lt _ (by decide)
  calc (sum ||| (b &&& 0x7f).toUInt32 <<< shift).toNat
      ≤ sum.toNat + 2 ^ shift.toNat * (b.toNat % 128) := equal ▸ Nat.mod_le _ _
    _ < 2 ^ shift.toNat * (b.toNat % 128 + 1) := by
        rw [Nat.mul_succ, Nat.add_comm]
        exact Nat.add_lt_add_left small _
    _ ≤ 2 ^ shift.toNat * 2 ^ 7 := Nat.mul_le_mul_left _ group
    _ = 2 ^ (shift + 7).toNat := by rw [next, Nat.pow_add]

theorem ulebFrom_takes {n : Nat} (spelled : Leb128 bytes n) (short : bytes.length ≤ left)
    (room : shift.toNat + 7 * left = 35) (small : sum.toNat < 2 ^ shift.toNat) :
    (ulebFrom left shift sum).Takes bytes (UInt32.ofNat (sum.toNat + 2 ^ shift.toNat * n)) := by
  induction spelled generalizing left shift sum with
  | @last b ends =>
    obtain ⟨left, rfl⟩ := Nat.exists_eq_add_of_le' short
    obtain ⟨value, -, -⟩ := group_step b room small
    have result : UInt32.ofNat (sum.toNat + 2 ^ shift.toNat * b.toNat) =
        sum ||| (b &&& 0x7f).toUInt32 <<< shift := by
      rw [← UInt32.toNat_inj, value, Nat.mod_eq_of_lt ends, UInt32.toNat_ofNat']
    rw [result]
    refine (Takes.byte b).bind_nil ?_
    rw [if_pos ((last_iff b).mpr ends)]
    exact .pure _
  | @more b bytes n continues rest ih =>
    obtain ⟨left, rfl⟩ := Nat.exists_eq_add_of_le' (le_trans (Nat.le_add_left 1 _) short)
    obtain ⟨value, bound, next⟩ := group_step b room small
    have shorter : bytes.length ≤ left := by simpa using short
    have further := ih shorter (by omega) bound
    have result : UInt32.ofNat ((sum ||| (b &&& 0x7f).toUInt32 <<< shift).toNat +
        2 ^ (shift + 7).toNat * n) =
        UInt32.ofNat (sum.toNat + 2 ^ shift.toNat * (b.toNat % 128 + 128 * n)) := by
      rw [← UInt32.toNat_inj, UInt32.toNat_ofNat', UInt32.toNat_ofNat', value, next,
        Nat.mod_add_mod, Nat.pow_add, Nat.mul_add, Nat.mul_assoc, Nat.add_assoc]
    rw [result] at further
    refine (Takes.byte b).bind ?_
    rwa [if_neg (mt (last_iff b).mp (Nat.not_lt.mpr continues))]

theorem uleb128_takes {n : Nat} (spelled : Leb128 bytes n) (short : bytes.length ≤ 5) :
    uleb128.Takes bytes (UInt32.ofNat n) := by
  have low : (0 : UInt32).toNat < 2 ^ (0 : UInt32).toNat := by decide
  have takes := ulebFrom_takes spelled short rfl low
  have value : (0 : UInt32).toNat + 2 ^ (0 : UInt32).toNat * n = n := by simp
  rwa [value] at takes

theorem toNat_signed {b : UInt8} (ends : b.toNat < 128) (room : shift.toNat + 7 * (left + 1) = 35)
    (small : sum.toNat < 2 ^ shift.toNat) :
    let total := sum ||| (b &&& 0x7f).toUInt32 <<< shift
    let filled := if ((shift + 7 < 32) && b &&& 0x40 != 0) = true then
      total ||| (0xffffffff : UInt32) <<< (shift + 7) else total
    (filled.toNat : Int) = (sum.toNat + 2 ^ shift.toNat * Int.bmod b.toNat 128) % 2 ^ 32 := by
  intro total filled
  obtain ⟨value, bound, next⟩ := group_step b room small
  have sign := sign_iff b
  rw [Nat.mod_eq_of_lt ends] at value sign
  have unsigned : (total.toNat : Int) = (sum.toNat + 2 ^ shift.toNat * b.toNat) % 2 ^ 32 := by
    rw [value]
    push_cast
    rfl
  by_cases positive : b.toNat < 64
  · have plain : filled = total := if_neg fun negative =>
      absurd (sign.mp (Bool.and_eq_true_iff.mp negative).2) (Nat.not_le.mpr positive)
    rw [plain, unsigned, Int.bmod_eq_of_le (by omega) (by omega)]
  · have group : Int.bmod b.toNat 128 = b.toNat - 128 := by
      rw [Int.bmod_def]
      omega
    rw [group]
    by_cases inside : shift.toNat + 7 < 32
    · have below : shift + 7 < 32 := by
        rwa [UInt32.lt_iff_toNat_lt, next]
      have extended : filled = total ||| (0xffffffff : UInt32) <<< (shift + 7) := if_pos
        (Bool.and_eq_true_iff.mpr ⟨decide_eq_true below, sign.mpr (Nat.le_of_not_lt positive)⟩)
      have ones := toNat_or_shiftLeft 0xffffffff (next ▸ inside) bound
      have power : (2 : Int) ^ (shift + 7).toNat = 2 ^ shift.toNat * 128 := by
        rw [next, Int.pow_add]
        rfl
      have whole : (filled.toNat : Int) =
          (total.toNat + 2 ^ (shift + 7).toNat * 0xffffffff) % 2 ^ 32 := by
        rw [extended, ones]
        push_cast
        rfl
      rw [whole, unsigned, power, Int.mul_sub]
      generalize (2 : Int) ^ shift.toNat * b.toNat = added
      generalize (2 : Int) ^ shift.toNat = unit
      omega
    · have last : shift.toNat = 28 := by omega
      have plain : filled = total := if_neg fun negative =>
        inside (by
          have below := of_decide_eq_true (Bool.and_eq_true_iff.mp negative).1
          rwa [UInt32.lt_iff_toNat_lt, next] at below)
      rw [plain, unsigned, last]
      omega

theorem slebFrom_takes {n : Int} (spelled : Sleb128 bytes n) (short : bytes.length ≤ left)
    (room : shift.toNat + 7 * left = 35) (small : sum.toNat < 2 ^ shift.toNat) :
    ∃ r : UInt32, (slebFrom left shift sum).Takes bytes r ∧
      (r.toNat : Int) = (sum.toNat + 2 ^ shift.toNat * n) % 2 ^ 32 := by
  induction spelled generalizing left shift sum with
  | @last b ends =>
    obtain ⟨left, rfl⟩ := Nat.exists_eq_add_of_le' short
    have ended := (last_iff b).mpr ends
    refine ⟨_, ?_, toNat_signed ends room small⟩
    refine (Takes.byte b).bind_nil ?_
    rw [if_pos ended]
    exact .pure _
  | @more b bytes n continues rest ih =>
    obtain ⟨left, rfl⟩ := Nat.exists_eq_add_of_le' (Nat.le_trans (Nat.le_add_left 1 _) short)
    obtain ⟨value, bound, next⟩ := group_step b room small
    have shorter : bytes.length ≤ left := by simpa using short
    obtain ⟨r, takes, equal⟩ := ih shorter (by omega) bound
    refine ⟨r, (Takes.byte b).bind ?_, ?_⟩
    · rwa [if_neg (mt (last_iff b).mp (Nat.not_lt.mpr continues))]
    · rw [equal, value, next]
      push_cast
      rw [Int.emod_add_emod, Int.pow_add, Int.mul_add, Int.mul_assoc, Int.add_assoc]
      rfl

theorem sleb128_takes {n : Int} (spelled : Sleb128 bytes n) (short : bytes.length ≤ 5) :
    sleb128.Takes bytes (Int32.ofInt n) := by
  have low : (0 : UInt32).toNat < 2 ^ (0 : UInt32).toNat := by decide
  obtain ⟨r, takes, equal⟩ := slebFrom_takes spelled short rfl low
  have value : (r.toNat : Int) = n % 2 ^ 32 := by simpa using equal
  have result : Int32.ofInt n = r.toInt32 := by
    rw [← Int32.toInt_inj, toInt_toInt32, value, Int32.toInt_ofInt]
    exact (Int.emod_bmod n (2 ^ 32)).symm
  rw [result]
  exact takes.bind_nil (.pure _)

end Taking

/-! ## What was read is spelled -/

section Found

variable {left : Nat} {shift sum : UInt32} {c after : Cursor}

theorem ReadsGroups.spelled {loop : Nat → UInt32 → UInt32 → Read UInt32} {v : UInt32}
    (loops : ReadsGroups loop) (done : loop left shift sum c = (.ok v, after)) :
    ∃ bytes, (∃ n, Leb128 bytes n) ∧ (∃ n, Sleb128 bytes n) ∧ bytes.length ≤ left ∧
      c.Ahead bytes := by
  induction left generalizing shift sum c with
  | zero =>
    rw [loops.full] at done
    cases done
  | succ left ih =>
    obtain ⟨last, shift', sum', unfolded⟩ := loops.group left shift sum
    rw [unfolded] at done
    obtain ⟨b, middle, first, done⟩ := bind_eq_ok done
    obtain ⟨ahead, rfl⟩ := byte_eq_ok first
    by_cases ends : b &&& 0x80 = 0
    · have small := (last_iff b).mp ends
      exact ⟨[b], ⟨_, .last small⟩, ⟨_, .last small⟩, Nat.le_add_left 1 left, ahead⟩
    · rw [if_neg ends] at done
      obtain ⟨bytes, ⟨n, unsigned⟩, ⟨m, signed⟩, short, behind⟩ := ih done
      have continues := Nat.le_of_not_lt (mt (last_iff b).mpr ends)
      exact ⟨b :: bytes, ⟨_, .more continues unsigned⟩, ⟨_, .more continues signed⟩,
        Nat.succ_le_succ short, ahead.append behind⟩

theorem spelled_of_uleb128 {v : UInt32} (done : uleb128 c = (.ok v, after)) :
    ∃ bytes n, Leb128 bytes n ∧ c.Ahead bytes ∧ v = UInt32.ofNat n ∧
      after = c.past bytes.length := by
  obtain ⟨bytes, ⟨n, spelled⟩, -, short, ahead⟩ := readsGroups_ulebFrom.spelled done
  have read := uleb128_takes spelled short c ahead
  rw [done] at read
  cases read
  exact ⟨bytes, n, spelled, ahead, rfl, rfl⟩

theorem spelled_of_sleb128 {v : Int32} (done : sleb128 c = (.ok v, after)) :
    ∃ bytes n, Sleb128 bytes n ∧ c.Ahead bytes ∧ v = Int32.ofInt n ∧
      after = c.past bytes.length := by
  obtain ⟨r, middle, first, -⟩ := bind_eq_ok done
  obtain ⟨bytes, -, ⟨n, spelled⟩, short, ahead⟩ := readsGroups_slebFrom.spelled first
  have read := sleb128_takes spelled short c ahead
  rw [done] at read
  cases read
  exact ⟨bytes, n, spelled, ahead, rfl, rfl⟩

end Found

end Read

end DexLift.Dex
