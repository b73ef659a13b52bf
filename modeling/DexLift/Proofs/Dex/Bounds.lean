import DexLift.Proofs.Dex.Leb128Reading

/-!
# Reading stays inside the data

A cursor is moved by reads, skips, alignments and jumps with numbers that come out of the data.
None of them leaves the data: from a place inside, each operation ends at a place inside, and what
it answers depends on nothing but the size of the data and the bytes that it has gone over. Reads
of a fixed size take the bytes at the cursor or fail and stay where they were.
-/

namespace DexLift.Dex

open List Read

/-! ## The bytes that a read goes over -/

namespace Cursor

variable {c d : Cursor} {m n : Nat}

/-- The next bytes, as many as there are. -/
def upcoming (c : Cursor) (n : Nat) : List UInt8 := (c.data.data.toList.drop c.pos).take n

/-- The cursor is not behind the end. -/
def Inside (c : Cursor) : Prop := c.pos ≤ c.data.size

/-- Two cursors at one place of data of one size have the same bytes ahead. -/
structure Agrees (d c : Cursor) (n : Nat) : Prop where
  pos : d.pos = c.pos
  size : d.data.size = c.data.size
  bytes : d.upcoming n = c.upcoming n

theorem Agrees.refl (c : Cursor) (n : Nat) : c.Agrees c n := ⟨rfl, rfl, rfl⟩

theorem upcoming_take (c : Cursor) (m n : Nat) : (c.upcoming (m + n)).take m = c.upcoming m := by
  rw [upcoming, take_take, Nat.min_eq_left (Nat.le_add_right m n)]
  rfl

theorem upcoming_past (c : Cursor) (m n : Nat) :
    (c.past m).upcoming n = (c.upcoming (m + n)).drop m := by
  rw [upcoming, upcoming, drop_take, drop_drop, Nat.add_sub_cancel_left]
  rfl

theorem Agrees.first (agrees : d.Agrees c (m + n)) : d.Agrees c m :=
  ⟨agrees.pos, agrees.size, by rw [← upcoming_take d m n, agrees.bytes, upcoming_take]⟩

theorem Agrees.later (agrees : d.Agrees c (m + n)) : (d.past m).Agrees (c.past m) n :=
  ⟨congrArg (· + m) agrees.pos, agrees.size, by rw [upcoming_past, agrees.bytes, upcoming_past]⟩

theorem length_upcoming (c : Cursor) (room : c.pos + n ≤ c.data.size) :
    (c.upcoming n).length = n := by
  have size : c.data.data.toList.length = c.data.size := rfl
  rw [upcoming, length_take, length_drop, size]
  omega

theorem inside_ofOffset (data : ByteArray) (offset : Int) : (ofOffset data offset).Inside := by
  unfold ofOffset
  split
  · exact le_rfl
  next kept =>
    change offset.toNat ≤ data.size
    omega

theorem data_ofOffset (data : ByteArray) (offset : Int) : (ofOffset data offset).data = data := by
  unfold ofOffset
  split <;> rfl

theorem inside_align (inside : c.Inside) (alignment : Int) : (c.align alignment).Inside := by
  unfold align
  split
  · exact inside
  · exact Nat.min_le_right _ _

theorem data_align (c : Cursor) (alignment : Int) : (c.align alignment).data = c.data := by
  unfold align
  split <;> rfl

end Cursor

namespace Read

variable {α β : Type} {read : Read α} {c d : Cursor}

/-- From any place inside the data the read goes over some bytes that are there, and any data of
the same size with these bytes answer the same. -/
def Careful (read : Read α) : Prop :=
  ∀ c : Cursor, c.Inside → ∃ n outcome, (c.past n).Inside ∧
    ∀ d : Cursor, d.Agrees c n → read d = (outcome, d.past n)

namespace Careful

theorem pure (a : α) : Careful (Pure.pure a : Read α) :=
  fun _ inside => ⟨0, .ok a, inside, fun _ _ => rfl⟩

theorem fail (cause : Cause) : Careful (fail cause : Read α) :=
  fun _ inside => ⟨0, Outcome.fail cause, inside, fun _ _ => rfl⟩

theorem bind {next : α → Read β} (first : Careful read) (later : ∀ a, Careful (next a)) :
    Careful (read >>= next) := by
  intro c inside
  obtain ⟨m, outcome, ends, same⟩ := first c inside
  cases outcome with
  | error stop =>
    exact ⟨m, .error stop, ends, fun d agrees => bind_of_error (same d agrees)⟩
  | ok a =>
    obtain ⟨n, outcome, ends, same'⟩ := later a (c.past m) ends
    rw [Cursor.past_past] at ends
    refine ⟨m + n, outcome, ends, fun d agrees => ?_⟩
    rw [bind_of_ok (same d agrees.first), same' _ agrees.later, Cursor.past_past]

theorem map (careful : Careful read) (f : α → β) : Careful (do return f (← read)) :=
  careful.bind fun a => .pure (f a)

theorem ite {p : Prop} [Decidable p] {other : Read α} (yes : Careful read)
    (no : Careful other) : Careful (if p then read else other) := by
  split
  · exact yes
  · exact no

end Careful

/-- A read of a fixed size gives what is made of the bytes at the cursor and moves on behind them, or
fails for want of them and stays. -/
def Sized (read : Read α) (size : Int) (value : List UInt8 → α) : Prop := ∀ c : Cursor,
  0 ≤ size ∧ c.pos + size ≤ c.data.size ∧ (c.upcoming size.toNat).length = size.toNat ∧
      read c = (.ok (value (c.upcoming size.toNat)), c.past size.toNat) ∨
    ¬ (0 ≤ size ∧ c.pos + size ≤ c.data.size) ∧ read c = (Outcome.fail .endOfData, c)

namespace Sized

variable {size : Int} {value : List UInt8 → α}

theorem careful (sized : Sized read size value) : Careful read := by
  intro c inside
  rcases sized c with ⟨positive, room, -⟩ | ⟨outside, -⟩
  · refine ⟨size.toNat, .ok (value (c.upcoming size.toNat)), ?_, fun d agrees => ?_⟩
    · change c.pos + size.toNat ≤ c.data.size
      omega
    · rcases sized d with ⟨-, -, -, run⟩ | ⟨outside, -⟩
      · rw [run, agrees.bytes]
      · exact absurd ⟨positive, by rwa [agrees.pos, agrees.size]⟩ outside
  · refine ⟨0, Outcome.fail .endOfData, inside, fun d agrees => ?_⟩
    rcases sized d with ⟨positive, room, -⟩ | ⟨-, run⟩
    · rw [agrees.pos, agrees.size] at room
      exact absurd ⟨positive, room⟩ outside
    · exact run

theorem map (sized : Sized read size value) {f : α → β} {g : List UInt8 → β}
    (same : ∀ bs : List UInt8, bs.length = size.toNat → f (value bs) = g bs) :
    Sized (do return f (← read)) size g := by
  intro c
  rcases sized c with ⟨positive, room, length, run⟩ | ⟨outside, run⟩
  · refine .inl ⟨positive, room, length, (bind_of_ok run).trans ?_⟩
    rw [← same _ length]
    rfl
  · exact .inr ⟨outside, bind_of_error run⟩

end Sized

theorem sized_bytes (n : Int) : Sized (bytes n) n id := by
  intro c
  by_cases outside : n < 0 ∨ c.pos + n > c.data.size
  · exact .inr ⟨by omega, if_pos outside⟩
  · have taken : (c.data.extract c.pos (c.pos + n.toNat)).data.toList = c.upcoming n.toNat := by
      rw [ByteArray.data_extract, Array.toList_extract, extract_eq_take_drop,
        Nat.add_sub_cancel_left]
      rfl
    refine .inl ⟨by omega, by omega, c.length_upcoming (by omega), ?_⟩
    rw [bytes, if_neg outside]
    exact congrArg (fun bs => (Except.ok bs, c.past n.toNat)) taken

theorem sized_byte : Sized byte 1 fun bs => bs.headD 0 := by
  intro c
  by_cases inside : c.pos < c.data.size
  · have here : c.upcoming 1 = [c.data[c.pos]] := by
      rw [Cursor.upcoming, drop_eq_getElem_cons inside]
      rfl
    refine .inl ⟨by decide, by omega, c.length_upcoming inside, ?_⟩
    rw [Int.toNat_one, here]
    exact dif_pos inside
  · exact .inr ⟨by omega, dif_neg inside⟩

theorem sized_skip (n : Int) : Sized (skip n) n fun _ => () := by
  intro c
  by_cases outside : n < 0 ∨ c.pos + n > c.data.size
  · exact .inr ⟨by omega, if_pos outside⟩
  · exact .inl ⟨by omega, by omega, c.length_upcoming (by omega), if_neg outside⟩

/-! ### Failures that are passed over -/

theorem sized_u16 : Sized u16 2 fun bs => UInt16.ofNat (littleEndian bs) :=
  (sized_bytes 2).map fun _ _ => rfl

theorem sized_u32 : Sized u32 4 fun bs => UInt32.ofNat (littleEndian bs) :=
  (sized_bytes 4).map fun _ _ => rfl

section Heeding

variable {k m n : Nat} {a : α} {value : List UInt8 → α} {checked : Read α}
  {checked' next : α → Read β}

/-- Where `k` bytes are known to be ahead, a read that succeeds takes `n` bytes, and the checked one
does the same. -/
def Heeds (k n : Nat) (checked read : Read α) : Prop :=
  ∀ c, k ≤ c.remaining → ∀ a after, read c = (.ok a, after) →
    checked c = (.ok a, after) ∧ after = c.past n ∧ n ≤ c.remaining

namespace Heeds

theorem lift (outcome : Outcome α) : Heeds k 0 (lift outcome) (lift outcome) := by
  intro c _ a after done
  cases done
  exact ⟨rfl, rfl, Nat.zero_le _⟩

theorem mono (heeds : Heeds m n checked read) (more : m ≤ k) : Heeds k n checked read :=
  fun c room => heeds c (more.trans room)

theorem bind (first : Heeds k m checked read) (more : ∀ a, Heeds (k - m) n (checked' a) (next a)) :
    Heeds k (n + m) (checked >>= checked') (read >>= next) := by
  intro c room b after done
  obtain ⟨a, middle, begun, done⟩ := bind_eq_ok done
  obtain ⟨same, rfl, taken⟩ := first c room a middle begun
  have left : (c.past m).remaining = c.remaining - m := by
    simp only [Cursor.remaining, Cursor.past, Nat.sub_add_eq]
  obtain ⟨same', rfl, behind⟩ := more a (c.past m) (by omega) b after done
  exact ⟨(bind_of_ok same).trans same', by rw [Cursor.past_past, Nat.add_comm], by omega⟩

theorem recast (heeds : Heeds k n read read) (cause : Cause) (describe : Text → Text) :
    Heeds k n (read.recast cause describe) (read.recast cause describe) :=
  fun c room a after done => ⟨done, (heeds c room a after (recast_eq_ok done)).2⟩

theorem times (step : Heeds k n checked read) (known : k = 0 ∨ k = n) (count : Nat) :
    Heeds (k * count) (n * count) (times checked count) (times read count) := by
  induction count with
  | zero => exact lift (.ok [])
  | succ count ih =>
    rw [Nat.mul_succ, Nat.mul_succ, ← Nat.zero_add (n * count)]
    refine (step.mono (Nat.le_add_left _ _)).bind fun head => ?_
    refine (ih.mono ?_).bind fun rest => lift (.ok (head :: rest))
    rcases known with rfl | rfl <;> omega

variable {stop : Read α} (stops : ∀ c a after, stop c ≠ (.ok a, after))
  (heeds : Heeds k n checked read)

include stops heeds

theorem ite {p : Prop} [Decidable p] : Heeds k n checked (if p then stop else read) := by
  intro c room a after done
  split at done
  · exact absurd done (stops c a after)
  · exact heeds c room a after done

/-- What is left of the data is compared with what the read needs. -/
theorem compared {p : Nat → Prop} [DecidablePred p] (enough : ∀ left, ¬ p left → k ≤ left) :
    Heeds 0 n checked (do if p (← remaining) then stop else read) := by
  intro c _ a after done
  have here : remaining c = (.ok c.remaining, c) := rfl
  rw [bind_of_ok here] at done
  split at done
  · exact absurd done (stops c a after)
  next more => exact heeds c (enough _ more) a after done

end Heeds

namespace Sized

variable (sized : Sized read n value)

include sized

theorem takes (done : read c = (.ok a, d)) :
    ∃ bs, bs.length = n ∧ c.Ahead bs ∧ a = value bs ∧ d = c.past n := by
  rcases sized c with ⟨-, -, length, here⟩ | ⟨-, failed⟩
  · cases here.symm.trans done
    exact ⟨c.upcoming n, length, take_prefix n _, rfl, rfl⟩
  · cases failed.symm.trans done

theorem heeds : Heeds k n read read := by
  intro c _ a after done
  obtain ⟨bs, rfl, ahead, -, rfl⟩ := sized.takes done
  exact ⟨done, rfl, ahead.length_le⟩

variable (fallback : α) (positive : 0 < n)

include positive

theorem heeds_orElse (fits : n ≤ k) : Heeds k n read (read.orElse fallback) := by
  intro c room a after done
  rcases sized c with ⟨-, -, -, here⟩ | ⟨outside, -⟩
  · rw [orElse, here] at done
    exact sized.heeds c room a after (here.trans done)
  · unfold Cursor.remaining at room
    omega

/-- A failure that is passed over comes again where what is behind it needs as many bytes. -/
theorem heeds_orElse_bind (small : n ≤ m) (more : ∀ a, Heeds 0 m (checked' a) (next a)) :
    Heeds 0 (m + n) (read >>= checked') (read.orElse fallback >>= next) := by
  intro c room b after done
  rcases sized c with ⟨-, inside, -, here⟩ | ⟨outside, here⟩
  · refine ((sized.heeds_orElse fallback positive le_rfl).bind fun a =>
      (more a).mono (Nat.zero_le _)) c ?_ b after done
    unfold Cursor.remaining
    omega
  · have passed : read.orElse fallback c = (.ok fallback, c) := by rw [orElse, here]; rfl
    rw [bind_of_ok passed] at done
    have taken := (more _ c room b after done).2.2
    unfold Cursor.remaining at taken
    omega

end Sized

end Heeding

theorem littleEndian_lt (bytes : List UInt8) : littleEndian bytes < 256 ^ bytes.length := by
  induction bytes with
  | nil => exact Nat.one_pos
  | cons b bytes ih =>
    have byte := b.toNat_lt
    rw [littleEndian, length_cons, Nat.pow_succ]
    omega

theorem littleEndian_lt_of_length {bs : List UInt8} {n : Nat} (length : bs.length = n) :
    littleEndian bs < 256 ^ n :=
  length ▸ littleEndian_lt bs

theorem careful_position : Careful position :=
  fun c inside => ⟨0, .ok c.pos, inside, fun d agrees => by rw [← agrees.pos]; rfl⟩

theorem careful_remaining : Careful remaining := by
  refine fun c inside => ⟨0, .ok c.remaining, inside, fun d agrees => ?_⟩
  rw [Cursor.remaining, ← agrees.size, ← agrees.pos]
  rfl

theorem ReadsGroups.careful {loop : Nat → UInt32 → UInt32 → Read UInt32}
    (loops : ReadsGroups loop) (left : Nat) (shift sum : UInt32) : Careful (loop left shift sum) := by
  induction left generalizing shift sum with
  | zero =>
    rw [loops.full]
    exact .fail _
  | succ left ih =>
    obtain ⟨last, shift', sum', unfolded⟩ := loops.group left shift sum
    rw [unfolded]
    exact sized_byte.careful.bind fun _ => .ite (.pure _) (ih _ _)

end Read

/-! ## Operations -/

/-- What can be done with a cursor. -/
inductive Operation where
  | position
  | remaining
  | u8
  | u16
  | u32
  | i32
  | uleb128
  | sleb128
  | uleb128p1
  | bytes (count : Int)
  | skip (count : Int)
  | align (alignment : Int)
  | seek (offset : Int)

/-- What an operation answers. -/
inductive Answer where
  | nothing
  | number (n : Int)
  | bytes (bs : List UInt8)

namespace Operation

/-- Carries out an operation. -/
def run : Operation → Read Answer
  | position => do return .number (← Read.position)
  | remaining => do return .number (← Read.remaining)
  | u8 => do return .number (← Read.byte).toNat
  | u16 => do return .number (← Read.u16).toNat
  | u32 => do return .number (← Read.u32).toNat
  | i32 => do return .number (← Read.u32).toInt32.toInt
  | uleb128 => do return .number (← Read.uleb128).toNat
  | sleb128 => do return .number (← Read.sleb128).toInt
  | uleb128p1 => do return .number (← Read.uleb128p1)
  | bytes count => do return .bytes (← Read.bytes count)
  | skip count => do
    Read.skip count
    return .nothing
  | align alignment => fun c => (.ok .nothing, c.align alignment)
  | seek offset => fun c => (.ok .nothing, c.seek offset)

/-- How many bytes an operation of a fixed size needs, and what it answers for them. -/
def fixed? : Operation → Option (Int × (List UInt8 → Answer))
  | u8 => some (1, fun bs => .number (Read.littleEndian bs))
  | u16 => some (2, fun bs => .number (Read.littleEndian bs))
  | u32 => some (4, fun bs => .number (Read.littleEndian bs))
  | i32 => some (4, fun bs => .number (Int.bmod (Read.littleEndian bs) (2 ^ 32)))
  | bytes count => some (count, .bytes)
  | skip count => some (count, fun _ => .nothing)
  | _ => none

/-- What an operation does at a cursor, the data and the bytes ahead being what they are: it ends
inside the same data and has looked at no bytes but those that it has gone over; and if its size is
fixed, it takes the bytes at the cursor, or fails for want of them and stays. -/
structure StaysInside (op : Operation) (c : Cursor) : Prop where
  inside : (op.run c).2.Inside
  data : (op.run c).2.data = c.data
  looks : ∀ d : Cursor, d.Agrees c ((op.run c).2.pos - c.pos) →
    op.run d = ((op.run c).1, { d with pos := (op.run c).2.pos })
  fixed : ∀ size answer, op.fixed? = some (size, answer) → Read.Sized op.run size answer

variable {op : Operation} {c : Cursor}

theorem sized {size : Int} {answer : List UInt8 → Answer}
    (fixed : op.fixed? = some (size, answer)) : Sized op.run size answer := by
  have word (bs : List UInt8) (length : bs.length = 4) :
      (UInt32.ofNat (littleEndian bs)).toNat = littleEndian bs :=
    UInt32.toNat_ofNat_of_lt' (littleEndian_lt_of_length length)
  cases op with
  | u8 =>
    cases fixed
    refine sized_byte.map fun bs length => ?_
    obtain ⟨b, rfl⟩ := length_eq_one_iff.mp length
    rfl
  | u16 =>
    cases fixed
    refine sized_u16.map fun bs length => ?_
    have small : littleEndian bs < 65536 := littleEndian_lt_of_length length
    exact congrArg (fun n : Nat => Answer.number n) (UInt16.toNat_ofNat_of_lt' small)
  | u32 =>
    cases fixed
    refine sized_u32.map fun bs length => ?_
    exact congrArg (fun n : Nat => Answer.number n) (word bs length)
  | i32 =>
    cases fixed
    refine sized_u32.map fun bs _ => ?_
    exact congrArg Answer.number (BitVec.toInt_ofNat (littleEndian bs))
  | bytes =>
    cases fixed
    exact (sized_bytes _).map fun _ _ => rfl
  | skip =>
    cases fixed
    exact (sized_skip _).map fun _ _ => rfl
  | _ => cases fixed

theorem staysInside_of_careful (careful : Careful op.run) (inside : c.Inside) :
    op.StaysInside c := by
  obtain ⟨n, outcome, ends, same⟩ := careful c inside
  have here := same c (.refl c n)
  refine ⟨?_, ?_, ?_, fun _ _ => sized⟩
  · rwa [here]
  · rw [here]
    rfl
  · intro d agrees
    have gone : (c.past n).pos - c.pos = n := Nat.add_sub_cancel_left _ _
    rw [here] at agrees ⊢
    rw [gone] at agrees
    rw [same d agrees, Cursor.past, agrees.pos]
    rfl

/-- From a place inside the data, no operation leaves them. -/
theorem staysInside (op : Operation) (inside : c.Inside) : op.StaysInside c := by
  have uleb128 : Read.Careful Read.uleb128 := Read.readsGroups_ulebFrom.careful 5 0 0
  have sleb128 := (Read.readsGroups_slebFrom.careful 5 0 0).map UInt32.toInt32
  cases op with
  | position => exact staysInside_of_careful (Read.careful_position.map _) inside
  | remaining => exact staysInside_of_careful (Read.careful_remaining.map _) inside
  | uleb128 => exact staysInside_of_careful (uleb128.map _) inside
  | sleb128 => exact staysInside_of_careful (sleb128.map _) inside
  | uleb128p1 => exact staysInside_of_careful ((uleb128.map _).map _) inside
  | u8 | u16 | u32 | i32 | bytes | skip =>
    exact staysInside_of_careful (sized rfl).careful inside
  | align alignment =>
    refine ⟨Cursor.inside_align inside alignment, Cursor.data_align c alignment, ?_, nofun⟩
    intro d agrees
    refine congrArg (Prod.mk _) ?_
    change d.align alignment = { d with pos := (c.align alignment).pos }
    unfold Cursor.align
    rw [agrees.pos, agrees.size]
    split
    · rw [← agrees.pos]
    · rfl
  | seek offset =>
    refine ⟨Cursor.inside_ofOffset _ _, Cursor.data_ofOffset _ _, ?_, nofun⟩
    intro d agrees
    refine congrArg (Prod.mk _) ?_
    change d.seek offset = { d with pos := (c.seek offset).pos }
    unfold Cursor.seek Cursor.ofOffset
    rw [agrees.size]
    split <;> rfl

/-! ## Runs -/

/-- The cursor after operations that are carried out one after the other, whether they succeed or
fail. -/
def after : List Operation → Cursor → Cursor
  | [], c => c
  | op :: ops, c => after ops (op.run c).2

theorem after_inside (ops : List Operation) (inside : c.Inside) :
    (after ops c).Inside ∧ (after ops c).data = c.data := by
  induction ops generalizing c with
  | nil => exact ⟨inside, rfl⟩
  | cons op ops ih =>
    have step := op.staysInside inside
    have ⟨still, same⟩ := ih step.inside
    exact ⟨still, same.trans step.data⟩

/-- Whatever operations have been carried out on a cursor that was set to an offset of some data,
the cursor is inside these data, and whatever operation comes next stays inside them. -/
theorem run_stays_inside (data : ByteArray) (offset : Int) (ops : List Operation)
    (op : Operation) :
    (after ops (.ofOffset data offset)).data = data ∧
      (after ops (.ofOffset data offset)).Inside ∧
      op.StaysInside (after ops (.ofOffset data offset)) := by
  have ⟨inside, same⟩ := after_inside ops (Cursor.inside_ofOffset data offset)
  exact ⟨same.trans (Cursor.data_ofOffset data offset), inside, op.staysInside inside⟩

end Operation

end DexLift.Dex
