import DexLift.Jvm.Reader
import DexLift.Proofs.Dex.ModifiedUtf8
import DexLift.Proofs.Jvm.Interning
import DexLift.Proofs.Jvm.Scanning
import Mathlib.Algebra.BigOperators.Group.List.Basic
import Mathlib.Data.List.Nodup
import Mathlib.Data.List.Perm.Subperm

/-!
# Pools read back

A pool that is written is read back entry by entry, each at its index, when its
size fits in the two bytes in front of it. That is so for all pools but the
largest one: a pool may have 65536 entries, and then its size is written as 0 and
no entry is read.
-/

namespace DexLift.Jvm

open List Constant

variable {bytes : List UInt8} {pieces : List (List UInt8)} {c : Constant} {p : Pool}

namespace Scan

variable {α : Type} {pc : Nat}

variable {step : Scan α}

theorem Reads.run_append {value : α} (reads : Reads 0 step bytes value) (rest : List UInt8) :
    step.run { data := ⟨(bytes ++ rest).toArray⟩ } =
      (value, { data := ⟨(bytes ++ rest).toArray⟩, off := bytes.length }) := by
  have before : Before { data := ⟨(bytes ++ rest).toArray⟩ } 0 bytes :=
    ⟨rfl, rfl, Nat.zero_le _, prefix_append bytes rest⟩
  have run := reads _ before
  rwa [Nat.zero_add] at run

variable {values : List α}

theorem reads_upTo
    (each : Forall₂ (fun piece value => ∀ pc, Reads pc step piece value) pieces values) :
    Reads pc (upTo step pieces.length) pieces.flatten values := by
  induction each generalizing pc with
  | nil => exact .pure []
  | @cons piece value pieces values first _ ih =>
    rw [length_cons, upTo, flatten_cons]
    exact reads_isFine.nil_bind ((first _).bind (ih.map (value :: ·)))

theorem reads_counted (pc : Nat) (small : pieces.length < 65536)
    (each : Forall₂ (fun piece value => ∀ pc, Reads pc step piece value) pieces values) :
    Reads pc (counted step) (u2OfNat pieces.length ++ pieces.flatten) values :=
  reads_u2OfNat (upTo step) (Nat.le_of_lt_succ small) (reads_upTo each)

theorem reads_table (pc : Nat) {β : Type} {bytes : β → List UInt8} {value : β → α} {rows : List β}
    (small : rows.length < 65536) (each : ∀ row ∈ rows, ∀ pc, Reads pc step (bytes row) (value row)) :
    Reads pc (counted step) (u2OfNat rows.length ++ rows.flatMap bytes) (rows.map value) := by
  have pieces : Forall₂ (fun piece value => ∀ pc, Reads pc step piece value)
      (rows.map bytes) (rows.map value) := by
    rwa [forall₂_map_left_iff, forall₂_map_right_iff, forall₂_same]
  have reads := reads_counted pc (by rwa [length_map]) pieces
  rwa [length_map, ← flatMap_def] at reads

end Scan

/-! ## Steps that may end early -/

namespace Parse

variable {α β : Type} {pc : Nat}

/-- A step that may end early reads some bytes and goes on. -/
def Reads (pc : Nat) (step : Parse α) (bytes : List UInt8) (value : α) : Prop :=
  Scan.Reads pc step.run bytes (.ok value)

theorem Reads.pure (value : α) : Reads pc (Pure.pure value) [] value := Scan.Reads.pure _

variable {next : α → Parse β} {result : β}

section Steps

variable {step : Parse α} {bytes more : List UInt8} {value : α}

theorem Reads.bind (first : Reads pc step bytes value)
    (second : Reads (pc + bytes.length) (next value) more result) :
    Reads pc (step >>= next) (bytes ++ more) result := by
  have goesOn : Scan.Reads (pc + bytes.length) (ExceptT.bindCont next (.ok value)) more
      (.ok result) := second
  exact Scan.Reads.bind first goesOn

theorem Reads.nil_bind (first : Reads pc step [] value)
    (second : Reads pc (next value) bytes result) : Reads pc (step >>= next) bytes result :=
  first.bind second

theorem Reads.bind_nil (first : Reads pc step bytes value)
    (second : Reads (pc + bytes.length) (next value) [] result) :
    Reads pc (step >>= next) bytes result := by
  have both := first.bind second
  rwa [append_nil] at both

end Steps

variable {step : Parse α} {values : List α}

theorem reads_upTo
    (each : Forall₂ (fun piece value => ∀ pc, Reads pc step piece value) pieces values) :
    Reads pc (upTo step pieces.length) pieces.flatten values := by
  induction each generalizing pc with
  | nil => exact .pure []
  | @cons piece value pieces values first _ ih =>
    rw [length_cons, upTo, flatten_cons]
    refine Reads.nil_bind (Scan.reads_isFine.map Except.ok) ?_
    exact (first _).bind (ih.bind_nil (.pure (value :: values)))

theorem reads_u2OfNat (next : Nat → Parse α) {n : Nat} (small : n ≤ 65535) {more : List UInt8}
    {value : α} (reads : Reads (pc + 2) (next n) more value) :
    Reads pc (do next (← Scan.u2).toNat) (u2OfNat n ++ more) value := by
  refine Reads.bind ((Scan.reads_u2 (UInt16.ofNat n)).map Except.ok) ?_
  rwa [UInt16.toNat_ofNat_of_lt' (Nat.lt_succ_of_le small)]

theorem reads_counted (small : pieces.length < 65536)
    (each : Forall₂ (fun piece value => ∀ pc, Reads pc step piece value) pieces values) :
    Reads pc (counted step) (u2OfNat pieces.length ++ pieces.flatten) values :=
  reads_u2OfNat (upTo step) (Nat.le_of_lt_succ small) (reads_upTo each)

theorem reads_check : Reads pc check [] () := by
  intro s before
  obtain ⟨data, off, failure⟩ := s
  cases before.off
  cases before.fine
  rfl

end Parse

theorem Scan.Reads.lift {α : Type} {pc : Nat} {step : Scan α} {value : α}
    (reads : Scan.Reads pc step bytes value) : Parse.Reads pc (liftM step) bytes value :=
  reads.map Except.ok

/-! ## Constants -/

namespace Constant

/-- A constant as it is read back. -/
def reread : Constant → Constant
  | utf8 text => .utf8 text.mended
  | c => c

theorem isWide_reread (c : Constant) : c.reread.isWide = c.isWide := by cases c <;> rfl

theorem slots_reread (c : Constant) : c.reread.slots = c.slots.map reread := by
  unfold slots
  rw [isWide_reread]
  split <;> rfl

theorem length_slots (c : Constant) : c.slots.length = if c.isWide then 2 else 1 := by
  unfold slots
  split <;> rfl

theorem flatMap_encoded_slots (c : Constant) : c.slots.flatMap encoded = c.encoded := by
  unfold slots
  split <;> simp [encoded]

theorem encoded_eq (proper : c.isProper = true) : c.encoded = c.tag :: c.body := by
  cases c with
  | unused => cases proper
  | _ => rfl

end Constant

namespace Pool

/-- The encoding is measured only above a third of the greatest length, and below it fits. -/
theorem isTooLong_iff (text : Text) :
    isTooLong text = true ↔ 65535 < (Mutf8.encode text).length := by
  have bound := Mutf8.length_encode_le text
  rw [isTooLong, Bool.and_eq_true, decide_eq_true_eq, decide_eq_true_eq]
  omega

theorem length_encode_of_short {text : Text} (short : isTooLong text = false) :
    (Mutf8.encode text).bytes.length < 65536 := by
  have fits := mt (isTooLong_iff text).mpr (Bool.eq_false_iff.mp short)
  exact Nat.lt_succ_of_le (Nat.le_of_not_lt fits)

/-- An entry is appended if it is new and there is room, and else the entries stay as they are. -/
theorem entries_intern (c : Constant) (p : Pool) :
    p.index[c]? = none ∧ p.entries.size + (if c.isWide then 2 else 1) ≤ capacity ∧
        ((intern c).run p).2.entries = (p.push c).entries ∨
      ¬ (p.index[c]? = none ∧ p.entries.size + (if c.isWide then 2 else 1) ≤ capacity) ∧
        ((intern c).run p).2.entries = p.entries := by
  by_cases new : p.index[c]? = none
  · by_cases room : p.entries.size + (if c.isWide then 2 else 1) ≤ capacity
    · refine .inl ⟨new, room, ?_⟩
      simp only [intern, StateT.run, modifyGet, MonadStateOf.modifyGet, StateT.modifyGet, new,
        Nat.not_lt.mpr room, if_false]
      rfl
    · refine .inr ⟨fun both => room both.2, ?_⟩
      simp only [intern, StateT.run, modifyGet, MonadStateOf.modifyGet, StateT.modifyGet, new,
        Nat.lt_of_not_le room, if_true]
      rfl
  · obtain ⟨i, known⟩ := Option.ne_none_iff_exists'.mp new
    refine .inr ⟨fun both => new both.1, ?_⟩
    simp only [intern, StateT.run, modifyGet, MonadStateOf.modifyGet, StateT.modifyGet, known]
    rfl

/-- A text is added exactly when its encoding has at most 65535 bytes, it is new and there is room;
and the two bytes in front of the encoding are its length. -/
theorem utf8_fits (text : Text) (p : Pool) :
    (((utf8 text).run p).2.entries ≠ p.entries ↔
      (Mutf8.encode text).length ≤ 65535 ∧ p.index[Constant.utf8 text]? = none ∧
        p.entries.size < capacity) ∧
    ∀ c ∈ ((utf8 text).run p).2.entries, c ∈ p.entries ∨
      ∃ length : UInt16, length.toNat = (Mutf8.encode text).length ∧
        c.encoded = 1 :: (u2 length ++ (Mutf8.encode text).bytes) := by
  by_cases long : isTooLong text = true
  · have same : ((utf8 text).run p).2.entries = p.entries := by
      rw [utf8, if_pos long]
      rfl
    have exceeds := (isTooLong_iff text).mp long
    rw [same]
    exact ⟨iff_of_false (· rfl) fun fits => Nat.not_lt.mpr fits.1 exceeds, fun _ => .inl⟩
  have short := Nat.le_of_not_lt (mt (isTooLong_iff text).mpr long)
  have asks : utf8 text = intern (.utf8 text) := if_neg long
  rw [asks]
  rcases entries_intern (.utf8 text) p with ⟨new, room, added⟩ | ⟨refused, same⟩
  · have more : (p.push (.utf8 text)).entries = p.entries.push (.utf8 text) := rfl
    rw [added, more]
    refine ⟨iff_of_true (fun same => ?_) ⟨short, new, room⟩, fun c member => ?_⟩
    · exact absurd ((Array.size_push _).symm.trans (congrArg Array.size same)) (Nat.succ_ne_self _)
    · refine (Array.mem_push.mp member).imp_right ?_
      rintro rfl
      exact ⟨UInt16.ofNat _, UInt16.toNat_ofNat_of_lt' (Nat.lt_succ_of_le short), rfl⟩
  · rw [same]
    exact ⟨iff_of_false (· rfl) fun fits => refused fits.2, fun _ => .inl⟩

end Pool

namespace Parse

variable {pc : Nat}

theorem join_halves (n : UInt64) :
    (n >>> 32).toUInt32.toUInt64 <<< 32 ||| n.toUInt32.toUInt64 = n := by
  have bound := n.toNat_lt
  have low : n.toUInt32.toUInt64.toNat = n.toNat % 2 ^ 32 := by
    rw [UInt32.toNat_toUInt64, UInt64.toNat_toUInt32]
  have high : ((n >>> 32).toUInt32.toUInt64 <<< 32).toNat = (n.toNat / 2 ^ 32) <<< 32 := by
    rw [UInt64.toNat_shiftLeft, UInt32.toNat_toUInt64, UInt64.toNat_toUInt32,
      UInt64.toNat_shiftRight]
    change (n.toNat >>> 32 % 2 ^ 32) <<< 32 % 2 ^ 64 = _
    rw [Nat.shiftRight_eq_div_pow, Nat.shiftLeft_eq, Nat.shiftLeft_eq]
    omega
  rw [← UInt64.toNat_inj, UInt64.toNat_or, high, low,
    ← Nat.shiftLeft_add_eq_or_of_lt (Nat.mod_lt _ (Nat.two_pow_pos 32)), Nat.shiftLeft_eq]
  omega

theorem reads_constant (proper : c.isProper = true) :
    Scan.Reads pc (constant? c.tag) c.body (some c.reread) := by
  have one : ∀ (a : UInt16) (make : UInt16 → Constant),
      Scan.Reads pc (do return some (make (← Scan.u2))) (u2 a) (some (make a)) :=
    fun a make => (Scan.reads_u2 a).map fun a => some (make a)
  have two : ∀ (a b : UInt16) (make : UInt16 → UInt16 → Constant),
      Scan.Reads pc (do let a ← Scan.u2; return some (make a (← Scan.u2))) (u2 a ++ u2 b)
        (some (make a b)) :=
    fun a b make => (Scan.reads_u2 a).bind ((Scan.reads_u2 b).map fun b => some (make a b))
  have wide : ∀ n : UInt64, Scan.Reads pc (do
      let high ← Scan.u4
      return high.toUInt64 <<< 32 ||| (← Scan.u4).toUInt64) (u8 n) n := by
    intro n
    have last : ∀ pc, Scan.Reads pc (do
        return (n >>> 32).toUInt32.toUInt64 <<< 32 ||| (← Scan.u4).toUInt64) (u4 n.toUInt32) n := by
      intro pc
      have reads := (Scan.reads_u4 n.toUInt32 : Scan.Reads pc _ _ _).map
        fun low => (n >>> 32).toUInt32.toUInt64 <<< 32 ||| low.toUInt64
      rwa [join_halves] at reads
    exact (Scan.reads_u4 (n >>> 32).toUInt32).bind (last _)
  cases c with
  | unused => cases proper
  | utf8 text =>
    rw [isProper, Bool.not_eq_true'] at proper
    have value : Mutf8.decode ⟨(Mutf8.encode text).bytes⟩ = text.mended := Mutf8.decode_encode_mended text
    have small := Nat.le_of_lt_succ (Pool.length_encode_of_short proper)
    refine Scan.reads_u2OfNat (fun n => do
      return some (utf8 (Mutf8.decode ⟨← Scan.bytes n⟩))) small ?_
    rw [reread, ← value]
    exact (Scan.reads_bytes rfl).map fun bytes => some (utf8 (Mutf8.decode ⟨bytes⟩))
  | integer bits => exact (Scan.reads_u4 bits).map fun bits => some (integer bits)
  | float bits => exact (Scan.reads_u4 bits).map fun bits => some (float bits)
  | long bits => exact (wide bits).map fun bits => some (long bits)
  | double bits => exact (wide bits).map fun bits => some (double bits)
  | «class» name => exact one name .class
  | string text => exact one text .string
  | methodType type => exact one type .methodType
  | fieldRef a b => exact two a b .fieldRef
  | methodRef a b => exact two a b .methodRef
  | interfaceMethodRef a b => exact two a b .interfaceMethodRef
  | nameAndType a b => exact two a b .nameAndType
  | invokeDynamic a b => exact two a b .invokeDynamic
  | methodHandle kind ref =>
    have last : ∀ pc, Scan.Reads pc (do return some (methodHandle kind (← Scan.u2)))
        (u2 ref) (some (methodHandle kind ref)) :=
      fun _ => (Scan.reads_u2 ref).map fun ref => some (methodHandle kind ref)
    exact (Scan.reads_u1 kind).bind (last _)

/-! ## Pools -/

theorem reads_constants {constants : List Constant} (proper : ∀ c ∈ constants, c.isProper = true)
    {count fuel : Nat} (enough : constants.length ≤ fuel)
    (total : p.count + (constants.flatMap slots).length = count) :
    Reads pc (Parse.constants count fuel p) (constants.flatMap encoded)
      (constants.foldl (fun p c => p.push c.reread) p) := by
  induction constants generalizing p fuel pc with
  | nil =>
    cases fuel with
    | zero => exact .pure p
    | succ fuel =>
      have done : (decide (p.count ≥ count) || !true) = true := by grind
      refine Scan.reads_isFine.lift.nil_bind ?_
      rw [if_pos done]
      exact .pure p
  | cons c rest ih =>
    rw [forall_mem_cons] at proper
    rw [flatMap_cons, length_append, length_slots] at total
    have some_ : 1 ≤ if c.isWide then 2 else 1 := by split <;> decide
    obtain ⟨fuel, rfl⟩ : ∃ less, fuel = less + 1 := Nat.exists_eq_add_one.mpr
      (lt_of_lt_of_le (Nat.zero_lt_succ _) enough)
    have more : ¬ (decide (p.count ≥ count) || !true) = true := by
      rw [Bool.not_true, Bool.or_false, decide_eq_true_eq]
      omega
    have rest : ∀ pc, Reads pc (Parse.constants count fuel (p.push c.reread))
        (rest.flatMap encoded) (rest.foldl (fun p c => p.push c.reread) (p.push c.reread)) :=
      fun _ => ih proper.2 (Nat.le_of_succ_le_succ enough) (by
        have size := Pool.size_push p c.reread
        rw [isWide_reread] at size
        change (p.push c.reread).entries.size + _ = count
        rw [size, Nat.add_assoc]
        exact total)
    rw [flatMap_cons, encoded_eq proper.1, cons_append, foldl_cons]
    refine Scan.reads_isFine.lift.nil_bind ?_
    rw [if_neg more]
    change Reads _ _ ([_] ++ (c.body ++ _)) _
    refine (Scan.reads_u1 c.tag).lift.bind ?_
    exact (reads_constant proper.1).lift.bind (rest _)

theorem toList_foldl_push (constants : List Constant) (p : Pool) :
    (constants.foldl (fun p c => p.push c.reread) p).entries.toList =
      p.entries.toList ++ (constants.flatMap slots).map reread := by
  induction constants generalizing p with
  | nil => rw [foldl_nil, flatMap_nil, map_nil, append_nil]
  | cons c rest ih =>
    rw [foldl_cons, ih, Pool.toList_push, slots_reread, flatMap_cons, map_append, append_assoc]

theorem reads_pool (regular : p.Regular) (small : p.count < 65536) :
    ∃ q : Pool, q.entries = p.entries.map reread ∧
      ∀ pc, Reads pc Parse.pool p.encoded q := by
  obtain ⟨constants, proper, rows⟩ := regular
  have size : p.count = 1 + (constants.flatMap slots).length := by
    rw [Pool.count, ← Array.length_toList, rows, length_cons, Nat.add_comm]
  have few : constants.length ≤ (constants.flatMap slots).length := by
    have each : ∀ n ∈ constants.map fun c => c.slots.length, 1 ≤ n := by
      intro n member
      obtain ⟨c, -, rfl⟩ := mem_map.mp member
      rw [length_slots]
      split <;> decide
    have sum := length_le_sum_of_one_le _ each
    rwa [length_map, ← length_flatMap] at sum
  have written : p.encoded = u2OfNat p.count ++ constants.flatMap encoded := by
    rw [Pool.encoded, rows, tail_cons, flatMap_assoc]
    simp only [flatMap_encoded_slots]
    rfl
  refine ⟨constants.foldl (fun p c => p.push c.reread) {}, ?_, ?_⟩
  · apply Array.toList_inj.mp
    rw [toList_foldl_push, Array.toList_map, rows]
    rfl
  · intro pc
    have all : ∀ pc, Reads pc (Parse.constants p.count p.count {}) (constants.flatMap encoded)
        (constants.foldl (fun p c => p.push c.reread) {}) :=
      fun _ => reads_constants proper (by omega) (by rw [size]; rfl)
    rw [written]
    refine reads_u2OfNat (fun count => do
      let pool ← Parse.constants count count {}
      check
      return pool) (Nat.le_of_lt_succ small) ?_
    exact (all _).bind_nil (reads_check.nil_bind (.pure _))

end Parse

/-! ## The texts of a pool -/

namespace Intern

variable {α β : Type} {I : Pool → Prop}

def Keeps (I : Pool → Prop) (step : Intern α) : Prop := ∀ p, I p → I (step.run p).2

theorem Keeps.pure (value : α) : Keeps I (Pure.pure value : Intern α) := fun _ => id

theorem Keeps.bind {step : Intern α} {next : α → Intern β} (first : Keeps I step)
    (second : ∀ value, Keeps I (next value)) : Keeps I (step >>= next) :=
  fun p holds => second _ _ (first p holds)

theorem Keeps.mapM {step : α → Intern β} {values : List α}
    (each : ∀ value ∈ values, Keeps I (step value)) : Keeps I (values.mapM step) := by
  induction values with
  | nil => exact .pure []
  | cons value values ih =>
    rw [mapM_cons]
    exact (each value (.head _)).bind fun _ =>
      (ih fun other member => each other (.tail _ member)).bind fun _ => .pure _

end Intern

namespace Pool

open Intern (Keeps)

def IsUtf8 (p : Pool) : Prop := ∀ text, Constant.utf8 text ∈ p.entries.toList → text.isUtf8 = true

theorem IsUtf8.map_reread (utf8 : p.IsUtf8) : p.entries.map reread = p.entries := by
  apply Array.toList_inj.mp
  rw [Array.toList_map]
  refine (map_congr_left ?_).trans (map_id _)
  intro c member
  cases c with
  | utf8 text =>
    rw [reread, Text.mended_eq (utf8 text member)]
    rfl
  | _ => rfl

theorem isUtf8_empty : IsUtf8 {} := by
  intro text member
  cases mem_singleton.mp member

theorem keeps_intern (utf8 : ∀ text, c = .utf8 text → text.isUtf8 = true) :
    Keeps IsUtf8 (intern c) := by
  intro p holds
  simp only [intern, StateT.run, modifyGet, MonadStateOf.modifyGet, StateT.modifyGet]
  cases p.index[c]? with
  | some i => exact holds
  | none =>
    by_cases full : p.entries.size + (if c.isWide then 2 else 1) > capacity
    · simp only [full, if_true]
      exact holds
    · simp only [full, if_false]
      intro text member
      have listed : Constant.utf8 text ∈ (p.push c).entries.toList := member
      rw [toList_push, mem_append] at listed
      rcases listed with old | new
      · exact holds text old
      · unfold slots at new
        split at new
        · rcases mem_cons.mp new with same | empty
          · exact utf8 text same.symm
          · cases mem_singleton.mp empty
        · exact utf8 text (mem_singleton.mp new).symm

section Keeping

variable {owner name type : Text} (utf8Owner : owner.isUtf8 = true) (utf8Name : name.isUtf8 = true)
  (utf8Type : type.isUtf8 = true)

include utf8Name

theorem keeps_utf8 : Keeps IsUtf8 (utf8 name) := by
  unfold utf8
  split
  · exact fun p holds => holds
  · exact keeps_intern fun text same => by
      cases same
      exact utf8Name

theorem keeps_class : Keeps IsUtf8 (class_ name) :=
  (keeps_utf8 utf8Name).bind fun _ => keeps_intern nofun

theorem keeps_string : Keeps IsUtf8 (string name) :=
  (keeps_utf8 utf8Name).bind fun _ => keeps_intern nofun

include utf8Type

theorem keeps_nameAndType : Keeps IsUtf8 (nameAndType name type) :=
  (keeps_utf8 utf8Name).bind fun _ => (keeps_utf8 utf8Type).bind fun _ => keeps_intern nofun

include utf8Owner

theorem keeps_member {kind : UInt16 → UInt16 → Constant} {reference : Intern UInt16}
    (asks : reference = do
      let owner ← class_ owner
      intern (kind owner (← nameAndType name type)))
    (noText : ∀ a b text, kind a b ≠ .utf8 text) : Keeps IsUtf8 reference := by
  subst asks
  exact (keeps_class utf8Owner).bind fun _ => (keeps_nameAndType utf8Name utf8Type).bind fun _ =>
    keeps_intern fun text same => absurd same (noText _ _ text)

end Keeping

theorem take_encoded (p : Pool) : p.encoded.take 2 = u2OfNat p.count := rfl

/-- A pool that is written is read back as it was, whatever stands behind it. -/
def Rereads (p : Pool) : Prop :=
  ∃ q : Pool, q.entries = p.entries ∧ ∀ rest,
    Parse.pool.run.run { data := ⟨(p.encoded ++ rest).toArray⟩ } =
      (.ok q, { data := ⟨(p.encoded ++ rest).toArray⟩, off := p.encoded.length })

namespace Request

theorem keeps_ask {r : Request} (utf8 : ∀ text ∈ r.texts, text.isUtf8 = true) :
    Keeps IsUtf8 r.ask := by
  cases r with
  | utf8 => exact keeps_utf8 (utf8 _ (.head _))
  | «class» => exact keeps_class (utf8 _ (.head _))
  | string => exact keeps_string (utf8 _ (.head _))
  | integer | float | long | double => exact keeps_intern nofun
  | nameAndType => exact keeps_nameAndType (utf8 _ (.head _)) (utf8 _ (.tail _ (.head _)))
  | fieldRef | methodRef | interfaceMethodRef =>
    exact keeps_member (utf8 _ (.head _)) (utf8 _ (.tail _ (.head _)))
      (utf8 _ (.tail _ (.tail _ (.head _)))) rfl fun _ _ _ => nofun

/-! ## The size of a pool -/

/-- What is asked for in a new pool is read back at its index, unless the pool has as many entries
as it can have. Then the size is written as 0. -/
theorem askAll_rereads (requests : List Request)
    (utf8 : ∀ r ∈ requests, ∀ text ∈ r.texts, text.isUtf8 = true)
    (fine : ((askAll requests).run {}).2.failure = none) :
    let p := ((askAll requests).run {}).2
    p.count ≤ 65535 ∧ Scan.number (p.encoded.take 2) = p.count ∧ p.Rereads ∨
      p.count = 65536 ∧ p.encoded.take 2 = [0, 0] := by
  intro p
  have exact := (askAll_spec requests exact_empty fine).1
  have allUtf8 : p.IsUtf8 :=
    Intern.Keeps.mapM (fun r member => keeps_ask (utf8 r member)) _ isUtf8_empty
  have regular : p.Regular := (adds_askAll requests {}).regular regular_empty
  rw [take_encoded]
  by_cases full : p.count = 65536
  · right
    rw [full]
    exact ⟨rfl, by decide⟩
  · left
    have bounded : p.count ≤ 65536 := exact.bounded
    have small : p.count < 65536 := by omega
    obtain ⟨q, same, reads⟩ := Parse.reads_pool regular small
    rw [allUtf8.map_reread] at same
    refine ⟨Nat.le_of_lt_succ small, ?_, q, same, fun rest => (reads 0).run_append rest⟩
    rw [u2OfNat, Scan.number_u2, UInt16.toNat_ofNat', Nat.mod_eq_of_lt small]

/-- A string and a long are read back. -/
theorem askAll_rereads_string :
    let requests := [string "answer", long 42]
    (∀ r ∈ requests, ∀ text ∈ r.texts, text.isUtf8 = true) ∧
      ((askAll requests).run {}).2.failure = none ∧
      let p := ((askAll requests).run {}).2
      p.count ≤ 65535 ∧ Scan.number (p.encoded.take 2) = p.count ∧ p.Rereads ∨
        p.count = 65536 ∧ p.encoded.take 2 = [0, 0] := by
  intro requests
  have ascii : ∀ r ∈ requests, ∀ text ∈ r.texts, ∀ b ∈ text.bytes, b < 0x80 := by decide +kernel
  have short : ∀ r ∈ requests, ∀ text ∈ r.texts, isTooLong text = false := by decide
  have utf8 : ∀ r ∈ requests, ∀ text ∈ r.texts, text.isUtf8 = true :=
    fun r member text listed => Text.isUtf8_of_ascii (ascii r member text listed)
  have fine := (takes_askAll short {} rfl (by decide)).1
  exact ⟨utf8, fine, askAll_rereads requests utf8 fine⟩

theorem length_lt_count (first : p.Has 0 .unused) {requests : List Request}
    (each : ∀ r ∈ requests, ∃ i, r.Stands p i) (different : requests.Nodup) :
    requests.length < p.count := by
  let found := (range' 1 (p.count - 1)).filterMap fun n => at? p (UInt16.ofNat n)
  have subset : requests ⊆ found := by
    intro r member
    obtain ⟨i, stands⟩ := each r member
    obtain ⟨c, here, some_, -⟩ := stands.exists_has
    have inside : i.toNat < p.count := here.lt
    have positive : i.toNat ≠ 0 := by
      intro zero
      rw [show i = 0 from UInt16.toNat_inj.mp zero] at here
      exact some_ (here.eq first)
    refine mem_filterMap.mpr ⟨i.toNat, mem_range'_1.mpr (by omega), ?_⟩
    rw [UInt16.ofNat_toNat]
    exact stands.at?_eq
  have few : found.length ≤ p.count - 1 :=
    le_trans (length_filterMap_le _ _) (le_of_eq length_range')
  have all : requests.length ≤ found.length := (Nodup.subperm different subset).length_le
  have some_ : 0 < p.count := first.lt
  omega

def numbers (n : Nat) : List Request := (range n).map fun k => integer (Int32.ofNat k)

theorem length_numbers (n : Nat) : (numbers n).length = n := by
  rw [numbers, length_map, length_range]

theorem count_numbers {n : Nat} (fits : n + 1 ≤ capacity) :
    ((askAll (numbers n)).run {}).2.failure = none ∧
      ((askAll (numbers n)).run {}).2.count = n + 1 := by
  have short : ∀ r ∈ numbers n, ∀ text ∈ r.texts, isTooLong text = false := by
    intro r member text listed
    obtain ⟨k, -, rfl⟩ := mem_map.mp member
    cases listed
  have taken : ((numbers n).map room).sum = n := by
    rw [numbers, map_map]
    change ((range n).map fun _ => 1).sum = n
    rw [map_const', length_range, sum_replicate]
    exact Nat.mul_one n
  obtain ⟨fine, few⟩ := takes_askAll short {} rfl (by
    rw [taken]
    exact le_trans (le_of_eq (Nat.add_comm 1 n)) fits)
  have different : (numbers n).Nodup := by
    refine Nodup.map_on ?_ nodup_range
    intro k inside m insideToo same
    rw [mem_range] at inside insideToo
    have value := congrArg Int32.toInt (Request.integer.inj same)
    unfold capacity at fits
    rw [Int32.toInt_ofNat_of_lt (by omega), Int32.toInt_ofNat_of_lt (by omega)] at value
    exact Int.ofNat_inj.mp value
  obtain ⟨-, each⟩ := askAll_spec (numbers n) exact_empty fine
  have stands : ∀ r ∈ numbers n, ∃ i, r.Stands ((askAll (numbers n)).run {}).2 i := by
    intro r member
    obtain ⟨k, inside, rfl⟩ := mem_iff_getElem.mp member
    exact ⟨_, each.get inside (each.length_eq ▸ inside)⟩
  have many := length_lt_count ((adds_askAll (numbers n) {}).keeps 0 .unused rfl) stands different
  rw [length_numbers] at many
  rw [taken] at few
  have size : ((askAll (numbers n)).run {}).2.count ≤ 1 + n := few
  exact ⟨fine, by omega⟩

/-- Asking for 65535 different numbers is no failure, but the pool then has 65536 entries, and its
size is written as 0. -/
theorem full_pool_counts_zero :
    ((askAll (numbers 65535)).run {}).2.failure = none ∧
      ((askAll (numbers 65535)).run {}).2.count = 65536 ∧
      ((askAll (numbers 65535)).run {}).2.encoded.take 2 = [0, 0] := by
  obtain ⟨fine, full⟩ := count_numbers (n := 65535) (by decide)
  rw [take_encoded, full]
  exact ⟨fine, rfl, by decide⟩

end Request

end Pool

end DexLift.Jvm
