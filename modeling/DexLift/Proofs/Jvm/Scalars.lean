import DexLift.Proofs.Jvm.Appending
import DexLift.Proofs.Jvm.Interning

/-!
# Pushing scalars and adding to locals

What an instruction does that pushes a number, or adds to one in a local, is told by its
bytes and by the entry of the pool that they name. A step of the assembler performs such
a change when the one instruction it appends does, whatever was in the pool before and
whatever is added to it later on.
-/

namespace DexLift.Jvm

/-! ## What instructions do -/

/-- A number on the operand stack or in a local. All but ints stand with their bits. -/
inductive Scalar where
  | int (n : Int32)
  | long (bits : UInt64)
  | float (bits : UInt32)
  | double (bits : UInt64)
deriving DecidableEq

def Scalar.slots : Scalar → Nat
  | int _ | float _ => 1
  | long _ | double _ => 2

/-- The locals and the operand stack of a method that runs; the top of the stack comes first. -/
structure Activation where
  locals : Nat → Option Scalar
  stack : List Scalar

namespace Activation

def push (f : Activation) (x : Scalar) : Activation := { f with stack := x :: f.stack }

def setLocal (f : Activation) (slot : Nat) (x : Scalar) : Activation :=
  { f with locals := fun other => if other = slot then some x else f.locals other }

/-- Adds to the int in a local; sums wrap around. -/
def add? (f : Activation) (slot : Nat) (n : Int32) : Option Activation :=
  match f.locals slot with
  | some (.int x) => some (f.setLocal slot (.int (x + n)))
  | _ => none

theorem add?_of_int {f : Activation} {slot : Nat} {x : Int32} (held : f.locals slot = some (.int x))
    (n : Int32) : f.add? slot n = some (f.setLocal slot (.int (x + n))) := by
  rw [add?, held]

end Activation

/-- The scalars with an instruction of their own, in the order of the opcodes from 2 on. -/
def ownOpcode : List Scalar :=
  [.int (-1), .int 0, .int 1, .int 2, .int 3, .int 4, .int 5, .long 0, .long 1,
    .float 0, .float 0x3f800000, .float 0x40000000, .double 0, .double 0x3ff0000000000000]

def Pool.oneSlot? (p : Pool) (index : UInt16) : Option Scalar :=
  match p.entry index with
  | .integer bits => some (.int bits.toInt32)
  | .float bits => some (.float bits)
  | _ => none

def Pool.twoSlots? (p : Pool) (index : UInt16) : Option Scalar :=
  match p.entry index with
  | .long bits => some (.long bits)
  | .double bits => some (.double bits)
  | _ => none

/-- Two bytes, the high one first. -/
def word (high low : UInt8) : UInt16 := UInt16.ofNat (high.toNat * 256 + low.toNat)

/-- Executes an instruction that pushes a scalar or adds to a local. Numbers that are part of the
instruction have a sign, indices and slots have none. -/
def execute? (p : Pool) (f : Activation) : List UInt8 → Option Activation
  | [code] => if code < 2 then none else (ownOpcode[code.toNat - 2]?).map f.push
  | [16, n] => some (f.push (.int n.toInt8.toInt32))
  | [17, high, low] => some (f.push (.int (word high low).toInt16.toInt32))
  | [18, index] => (p.oneSlot? index.toUInt16).map f.push
  | [19, high, low] => (p.oneSlot? (word high low)).map f.push
  | [20, high, low] => (p.twoSlots? (word high low)).map f.push
  | [132, slot, n] => f.add? slot.toNat n.toInt8.toInt32
  | [196, 132, slotHigh, slotLow, high, low] =>
    f.add? (word slotHigh slotLow).toNat (word high low).toInt16.toInt32
  | _ => none

section Executing

variable {p : Pool} {f : Activation} {x : Scalar} {index : UInt16} {n : Int32}

theorem word_u2 (n : UInt16) : word (n >>> 8).toUInt8 n.toUInt8 = n := by
  have number := Scan.number_u2 n
  simp only [Scan.number, u2, List.foldl_cons, List.foldl_nil, Nat.zero_mul, Nat.zero_add] at number
  rw [word, number, UInt16.ofNat_toNat]

theorem toInt32_byteOfInt (low : -128 ≤ n.toInt) (high : n.toInt ≤ 127) :
    (byteOfInt n.toInt).toInt8.toInt32 = n := by
  rw [← Int32.toInt_inj, Int8.toInt_toInt32, Scan.toInt_byteOfInt low high]

theorem toInt32_lowWord (low : -32768 ≤ n.toInt) (high : n.toInt ≤ 32767) :
    (UInt16.ofNat (n.toInt % 65536).toNat).toInt16.toInt32 = n := by
  rw [← Int32.toInt_inj, Int16.toInt_toInt32, Scan.toInt_lowWord low high]

theorem execute?_iconst (low : -1 ≤ n.toInt) (high : n.toInt ≤ 5) :
    execute? p f [byteOfInt (3 + n.toInt)] = some (f.push (.int n)) := by
  have each : ∀ k < 7, ¬ byteOfInt (2 + k : Nat) < 2 ∧
      ownOpcode[(byteOfInt (2 + k : Nat)).toNat - 2]? = some (.int (Int32.ofInt (k - 1))) := by
    decide
  obtain ⟨known, own⟩ := each (n.toInt + 1).toNat (by omega)
  have code : ((2 + (n.toInt + 1).toNat : Nat) : Int) = 3 + n.toInt := by omega
  have value : (((n.toInt + 1).toNat : Nat) : Int) - 1 = n.toInt := by omega
  rw [code] at known own
  rw [value, Int32.ofInt_toInt] at own
  change (if _ then none else Option.map f.push _) = _
  rw [if_neg known, own]
  rfl

theorem execute?_bipush (low : -128 ≤ n.toInt) (high : n.toInt ≤ 127) :
    execute? p f [Opcode.bipush.code, byteOfInt n.toInt] = some (f.push (.int n)) :=
  congrArg (fun n => some (f.push (.int n))) (toInt32_byteOfInt low high)

theorem execute?_sipush (low : -32768 ≤ n.toInt) (high : n.toInt ≤ 32767) :
    execute? p f (Opcode.sipush.code :: u2OfInt n.toInt) = some (f.push (.int n)) := by
  change some (f.push (.int (word _ _).toInt16.toInt32)) = _
  rw [word_u2, toInt32_lowWord low high]

theorem execute?_ldc (small : index ≤ 255) (found : p.oneSlot? index = some x) :
    execute? p f [Opcode.ldc.code, index.toUInt8] = some (f.push x) := by
  have same : index.toUInt8.toUInt16 = index := by
    have bound : index.toNat ≤ 255 := UInt16.le_iff_toNat_le.mp small
    rw [← UInt16.toNat_inj, UInt8.toNat_toUInt16, UInt16.toNat_toUInt8]
    exact Nat.mod_eq_of_lt (Nat.lt_succ_of_le bound)
  change (p.oneSlot? index.toUInt8.toUInt16).map f.push = _
  rw [same, found]
  rfl

theorem execute?_ldcW (found : p.oneSlot? index = some x) :
    execute? p f (Opcode.ldcW.code :: u2 index) = some (f.push x) := by
  change (p.oneSlot? (word _ _)).map f.push = _
  rw [word_u2, found]
  rfl

theorem execute?_ldc2W (found : p.twoSlots? index = some x) :
    execute? p f (Opcode.ldc2W.code :: u2 index) = some (f.push x) := by
  change (p.twoSlots? (word _ _)).map f.push = _
  rw [word_u2, found]
  rfl

theorem execute?_iinc {slot : Nat} (small : slot ≤ 255) (low : -128 ≤ n.toInt)
    (high : n.toInt ≤ 127) :
    execute? p f [Opcode.iinc.code, byteOfInt slot, byteOfInt n.toInt] = f.add? slot n := by
  have addressed : (byteOfInt slot).toNat = slot := by
    rw [Asm.byteOfInt_natCast, UInt8.toNat_ofNat', Nat.mod_eq_of_lt (by omega)]
  change f.add? (byteOfInt slot).toNat (byteOfInt n.toInt).toInt8.toInt32 = _
  rw [addressed, toInt32_byteOfInt low high]

theorem execute?_wideIinc (slot : Nat) (low : -32768 ≤ n.toInt) (high : n.toInt ≤ 32767) :
    execute? p f (Opcode.wide.code :: Opcode.iinc.code :: u2OfInt slot ++ u2OfInt n.toInt) =
      f.add? (slot % 65536) n := by
  have reduced : ((slot : Int) % 65536).toNat = slot % 65536 := by omega
  change f.add? (word _ _).toNat (word _ _).toInt16.toInt32 = _
  rw [word_u2, word_u2, toInt32_lowWord low high, reduced, UInt16.toNat_ofNat']
  exact congrArg (fun slot => f.add? slot n) (Nat.mod_mod slot 65536)

end Executing

/-! ## What steps of the assembler perform -/

/-- What one more instruction brings. It changes the depth, and has this effect when it is executed
with the pool of the finished class. The pool fails only for want of room. -/
structure Assembler.Gains (a b : Assembler) (data : List UInt8) (delta : Int) (room : Nat)
    (effect : Activation → Option Activation) : Prop where
  added : a.Extends b (.bytes data)
  depth : b.depth = a.depth + delta
  full : b.pool.failure ≠ none → Pool.capacity < a.pool.entries.size + room
  executed : ∀ p, b.pool.Grows p → p.failure = none → ∀ f, execute? p f data = effect f

namespace Asm

/-- A step appends one instruction with an effect, whatever sound pool it finds. -/
def Performs (step : Asm Unit) (delta : Int) (room : Nat)
    (effect : Activation → Option Activation) : Prop :=
  ∀ a : Assembler, a.pool.Sound → a.pool.failure = none →
    ∃ b data, step.run.run a = (.ok (), b) ∧ a.Gains b data delta room effect

/-- A step pushes a scalar, which takes as much room in a pool as on the stack. -/
def PushesScalar (step : Asm Unit) (x : Scalar) : Prop :=
  Performs step x.slots x.slots fun f => some (f.push x)

variable {o : Opcode} {operands : List UInt8} {delta : Int} {room : Nat} {step other : Asm Unit}
  {effect : Activation → Option Activation} {c : Constant} {x : Scalar}

theorem run_emit (delta : Int) (o : Opcode) (operands : List UInt8) (a : Assembler) :
    ∃ b, (emit delta o operands).run.run a = (.ok (), b) ∧
      a.Extends b (.bytes (o.code :: operands)) ∧ b.depth = a.depth + delta ∧ b.pool = a.pool :=
  ⟨_, rfl, ⟨rfl, rfl, rfl, rfl, rfl, rfl, .refl a.pool⟩, rfl, rfl⟩

theorem performs_emit (executed : ∀ p f, execute? p f (o.code :: operands) = effect f) :
    Performs (emit delta o operands) delta room effect := by
  intro a sound fine
  obtain ⟨b, ran, added, depth, same⟩ := run_emit delta o operands a
  refine ⟨b, o.code :: operands, ran, added, depth, fun failed => ?_, fun p _ _ => executed p⟩
  rw [same] at failed
  exact absurd fine failed

theorem performs_entry (proper : c.isProper = true) (fits : (if c.isWide then 2 else 1) ≤ room)
    {next : UInt16 → Asm Unit} (emits : ∀ index, ∃ o operands, next index = emit delta o operands ∧
      ∀ p f, p.Has index c → execute? p f (o.code :: operands) = effect f) :
    Performs (intern (Pool.intern c) >>= next) delta room effect := by
  intro a sound fine
  obtain ⟨o, operands, isEmit, executed⟩ := emits ((Pool.intern c).run a.pool).1
  have grows := Pool.adds_intern c proper a.pool
  obtain ⟨b, ran, added, depth, same⟩ :=
    run_emit delta o operands { a with pool := ((Pool.intern c).run a.pool).2 }
  refine ⟨b, o.code :: operands, ?_, ⟨added.items, added.labels, added.catchers, added.lines,
    added.frames, added.initial, grows.trans added.pool⟩, depth, ?_, ?_⟩
  · rw [run_bind_of_ok (run_intern _ a), isEmit, ran]
  · rw [same]
    intro failed
    by_contra roomy
    exact failed (Pool.takes_intern c a.pool fine (by omega)).1
  · intro p later unspoiled f
    have here := Pool.has_intern sound ((added.pool.trans later).fine unspoiled)
    exact executed p f ((added.pool.trans later).keeps _ _ here)

theorem Performs.ite {p : Prop} [Decidable p] (first : p → Performs step delta room effect)
    (second : ¬ p → Performs other delta room effect) :
    Performs (if p then step else other) delta room effect := by
  split
  next holds => exact first holds
  next fails => exact second fails

theorem Performs.after_room (performs : Performs step delta room effect) (most : Assembler → Nat) :
    Performs (update (fun a => { a with maxLocals := most a }) >>= fun _ => step) delta room
      effect := by
  intro a sound fine
  obtain ⟨b, data, ran, gains⟩ := performs { a with maxLocals := most a } sound fine
  exact ⟨b, data, ran, ⟨gains.added.items, gains.added.labels, gains.added.catchers,
    gains.added.lines, gains.added.frames, gains.added.initial, gains.added.pool⟩, gains.depth,
    gains.full, gains.executed⟩

/-! ### Scalars and increments -/

theorem pushesScalar_loadConstant (proper : c.isProper = true) (narrow : c.isWide = false)
    (single : x.slots = 1)
    (found : ∀ {p : Pool} {index}, p.Has index c → p.oneSlot? index = some x) :
    PushesScalar (intern (Pool.intern c) >>= loadConstant) x := by
  rw [PushesScalar, single]
  refine performs_entry proper (by rw [narrow]; exact Nat.le_refl 1) fun index => ?_
  by_cases small : index ≤ 255
  · exact ⟨.ldc, [index.toUInt8], if_pos small, fun p f here => execute?_ldc small (found here)⟩
  · exact ⟨.ldcW, u2 index, if_neg small, fun p f here => execute?_ldcW (found here)⟩

theorem pushesScalar_ldc2W (proper : c.isProper = true) (wide : x.slots = 2)
    (found : ∀ {p : Pool} {index}, p.Has index c → p.twoSlots? index = some x) :
    PushesScalar (intern (Pool.intern c) >>= fun index => emit 2 .ldc2W (u2 index)) x := by
  rw [PushesScalar, wide]
  refine performs_entry proper (by split <;> omega) fun index => ?_
  exact ⟨.ldc2W, u2 index, rfl, fun p f here => execute?_ldc2W (found here)⟩

theorem pushesScalar_int (n : Int32) : PushesScalar (int n) (.int n) := by
  refine Performs.ite (fun small => ?_) fun _ => Performs.ite (fun byte => ?_) fun _ =>
    Performs.ite (fun short => ?_) fun _ => ?_
  · exact performs_emit fun p f => execute?_iconst small.1 small.2
  · exact performs_emit fun p f => execute?_bipush byte.1 byte.2
  · exact performs_emit fun p f => execute?_sipush short.1 short.2
  · refine pushesScalar_loadConstant rfl rfl rfl fun here => ?_
    rw [Pool.oneSlot?, here.entry_eq]
    rfl

theorem pushesScalar_long (bits : UInt64) : PushesScalar (long bits) (.long bits) := by
  refine Performs.ite (fun small => ?_) fun _ => ?_
  · refine performs_emit fun p f => ?_
    rcases small with rfl | rfl <;> rfl
  · refine pushesScalar_ldc2W rfl rfl fun here => ?_
    rw [Pool.twoSlots?, here.entry_eq]

theorem pushesScalar_float (bits : UInt32) : PushesScalar (float bits) (.float bits) := by
  refine Performs.ite (fun zero => ?_) fun _ => Performs.ite (fun one => ?_) fun _ =>
    Performs.ite (fun two => ?_) fun _ => ?_
  · exact performs_emit fun p f => zero ▸ rfl
  · exact performs_emit fun p f => one ▸ rfl
  · exact performs_emit fun p f => two ▸ rfl
  · refine pushesScalar_loadConstant rfl rfl rfl fun here => ?_
    rw [Pool.oneSlot?, here.entry_eq]

theorem pushesScalar_double (bits : UInt64) : PushesScalar (double bits) (.double bits) := by
  refine Performs.ite (fun zero => ?_) fun _ => Performs.ite (fun one => ?_) fun _ => ?_
  · exact performs_emit fun p f => zero ▸ rfl
  · exact performs_emit fun p f => one ▸ rfl
  · refine pushesScalar_ldc2W rfl rfl fun here => ?_
    rw [Pool.twoSlots?, here.entry_eq]

theorem performs_increment (slot : Nat) {n : Int32} (low : -32768 ≤ n.toInt)
    (high : n.toInt ≤ 32767) :
    Performs (increment slot n.toInt) 0 0 fun f => f.add? (slot % 65536) n := by
  refine Performs.after_room (Performs.ite (fun short => ?_) fun _ => ?_) _
  · have same : slot % 65536 = slot := Nat.mod_eq_of_lt (by omega)
    rw [same]
    exact performs_emit fun p f => execute?_iinc (by omega) short.2.1 short.2.2
  · exact performs_emit fun p f => execute?_wideIinc slot low high

end Asm

end DexLift.Jvm
