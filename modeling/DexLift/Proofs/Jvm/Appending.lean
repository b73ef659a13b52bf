import DexLift.Proofs.Jvm.Assembling
import DexLift.Proofs.Jvm.Calls
import DexLift.Proofs.Order.Arrangement
import Mathlib.Data.List.Induction
import Mathlib.Tactic.SplitIfs

/-!
# Appending instructions

Every call that appends an instruction and has proper arguments adds one item to the
code, which is for the call, given the pool of the finished class. Indices that were
handed out on the way stay good, so the item of a call does not depend on the calls
that follow.
-/

namespace DexLift.Jvm

open List Pool

variable {o : Opcode} {step : Asm Unit} {c : Constant} {desc : Text} {low : Int32}
  {targets : List CodeLabel} {default : CodeLabel} {branches : List (Int32 × CodeLabel)}

/-- One more item, and a pool that has grown; everything else that ends up in the code is as it was.
-/
structure Assembler.Extends (a b : Assembler) (item : Item) : Prop where
  items : b.items = a.items.push item
  labels : b.labels = a.labels
  catchers : b.catchers = a.catchers
  lines : b.lines = a.lines
  frames : b.frames = a.frames
  initial : b.initial = a.initial
  pool : a.pool.Grows b.pool

namespace Asm

def Appends (step : Asm Unit) (good : Pool → Item → Prop) : Prop :=
  ∀ a b, step.run.run a = (.ok (), b) → a.pool.Sound →
    ∃ item, a.Extends b item ∧ ∀ p, b.pool.Grows p → p.failure = none → good p item

section Steps

variable {good : Pool → Item → Prop}

theorem appends_append {item : Item} (fits : ∀ p, good p item) (delta : Int) :
    Appends (append item delta) good := by
  intro a b ran sound
  cases ran
  exact ⟨item, ⟨rfl, rfl, rfl, rfl, rfl, rfl, .refl a.pool⟩, fun p _ _ => fits p⟩

theorem appends_emit {operands : List UInt8} (fits : ∀ p, good p (.bytes (o.code :: operands)))
    (delta : Int) :
    Appends (emit delta o operands) good := appends_append fits delta

section

variable (appends : Appends step good)

include appends

theorem Appends.silent {next : Unit → Asm Unit}
    (silent : ∀ a, ∃ b, (next ()).run.run a = (.ok (), b) ∧ b.items = a.items ∧
      b.labels = a.labels ∧ b.catchers = a.catchers ∧ b.lines = a.lines ∧ b.frames = a.frames ∧
      b.initial = a.initial ∧ b.pool = a.pool) : Appends (step >>= next) good := by
  intro a c ran sound
  obtain ⟨⟨⟩, b, ended, ran⟩ := bind_ok ran
  obtain ⟨item, grown, fits⟩ := appends a b ended sound
  obtain ⟨c', ran', items, labels, catchers, lines, frames, initial, pool⟩ := silent b
  rw [ran'] at ran
  cases ran
  refine ⟨item, ⟨items.trans grown.items, labels.trans grown.labels,
    catchers.trans grown.catchers, lines.trans grown.lines, frames.trans grown.frames,
    initial.trans grown.initial, ?_⟩, ?_⟩
  · rw [pool]
    exact grown.pool
  · rwa [pool]

theorem Appends.emptying : Appends (step >>= fun _ => emptyStack) good :=
  appends.silent fun _ => ⟨_, rfl, rfl, rfl, rfl, rfl, rfl, rfl, rfl⟩

theorem Appends.emptyingIf (p : Prop) [Decidable p] :
    Appends (step >>= fun _ => if p then emptyStack else pure ()) good := by
  by_cases holds : p
  · simp only [holds, if_true]
    exact appends.emptying
  · simp only [holds, if_false]
    exact appends.silent fun a => ⟨a, rfl, rfl, rfl, rfl, rfl, rfl, rfl, rfl⟩

theorem Appends.after_room (room : Assembler → Nat) :
    Appends (update (fun a => { a with maxLocals := room a }) >>= fun _ => step) good := by
  intro a b ran sound
  obtain ⟨item, grown, fits⟩ := appends _ b ran sound
  exact ⟨item, ⟨grown.items, grown.labels, grown.catchers, grown.lines, grown.frames,
    grown.initial, grown.pool⟩, fits⟩

end

theorem appends_lift {α : Type} {outcome : Outcome α} {next : α → Asm Unit}
    (appends : ∀ value, outcome = .ok value → Appends (next value) good) :
    Appends (lift outcome >>= next) good := by
  intro a b ran sound
  cases outcome with
  | error stop => cases ran
  | ok value => exact appends value rfl a b ran sound

theorem appends_intern (isIt : Pool → UInt16 → Prop) {step : Intern UInt16}
    (adds : Intern.Adds step)
    (found : ∀ p : Pool, p.Sound → (step.run p).2.failure = none →
      isIt (step.run p).2 (step.run p).1)
    (kept : ∀ {p q : Pool} {index : UInt16}, p.Grows q → isIt p index → isIt q index)
    {next : UInt16 → Asm Unit}
    (appends : ∀ index, Appends (next index) fun p item => isIt p index → good p item) :
    Appends (intern step >>= next) good := by
  intro a b ran sound
  rw [run_bind_of_ok (run_intern step a)] at ran
  have grows := adds a.pool
  obtain ⟨item, grown, fits⟩ := appends _ _ _ ran (grows.sound sound)
  refine ⟨item, ⟨grown.items, grown.labels, grown.catchers, grown.lines, grown.frames,
    grown.initial, grows.trans grown.pool⟩, ?_⟩
  intro p later fine
  have here := found a.pool sound ((grown.pool.trans later).fine fine)
  exact fits p later fine (kept (grown.pool.trans later) here)

theorem Appends.ite {p : Prop} [Decidable p] {other : Asm Unit} (first : p → Appends step good)
    (second : ¬p → Appends other good) : Appends (if p then step else other) good := by
  split
  next holds => exact first holds
  next fails => exact second fails

end Steps

/-! ## One item for each form -/

section Forms

variable {call : Call} {p : Pool}

theorem isFor_plain (form : o.HasForm 0)
    (shows : ∀ (pc : Nat) (stands : Standing), Shows p stands call [{ pc, op := o }]) :
    Item.IsFor p call (.bytes [o.code]) :=
  .bytes fun pc stands => ⟨_, rfl, Scan.encodes_ordinary form, shows pc stands⟩

theorem isFor_byte (form : o.HasForm 1) {b : UInt8}
    (shows : ∀ (pc : Nat) (stands : Standing),
      Shows p stands call [{ pc, op := o, args := [(b.toNat : Int)] }]) :
    Item.IsFor p call (.bytes [o.code, b]) := by
  have value : operandOf [b] = [(b.toNat : Int)] := by simp [operandOf, Scan.number]
  refine .bytes fun pc stands => ⟨_, rfl, Scan.encodes_ordinary form, ?_⟩
  rw [value]
  exact shows pc stands

theorem isFor_index (form : o.HasForm 2) {index : UInt16}
    (shows : ∀ (pc : Nat) (stands : Standing),
      Shows p stands call [{ pc, op := o, args := [(index.toNat : Int)] }]) :
    Item.IsFor p call (.bytes (o.code :: u2 index)) := by
  have value : operandOf (u2 index) = [(index.toNat : Int)] :=
    congrArg (fun n : Nat => [(n : Int)]) (Scan.number_u2 index)
  refine .bytes fun pc stands => ⟨_, rfl, Scan.encodes_ordinary form, ?_⟩
  rw [value]
  exact shows pc stands

theorem appends_loadConstant {isIt : Pool → UInt16 → Prop}
    (shows : ∀ (p : Pool) (stands : Standing) (i : Instruction), Pushes (isIt p) i →
      Shows p stands call [i]) (index : UInt16) :
    Appends (loadConstant index) fun p item => isIt p index → item.IsFor p call := by
  refine Appends.ite (fun small => ?_) fun _ => ?_
  · have byte : index.toUInt8.toNat = index.toNat := by
      have bound : index.toNat ≤ 255 := UInt16.le_iff_toNat_le.mp small
      rw [UInt16.toNat_toUInt8]
      exact Nat.mod_eq_of_lt (Nat.lt_succ_of_le bound)
    refine appends_emit (fun p here => isFor_byte (by decide) ?_) 1
    intro pc stands
    rw [byte]
    exact shows p stands _ (.ldc pc .ldc (.inl rfl) index here)
  · refine appends_emit (fun p here => isFor_index (by decide) ?_) 1
    exact fun pc stands => shows p stands _ (.ldc pc .ldcW (.inr rfl) index here)

theorem appends_constant (isIt : Pool → UInt16 → Prop) {step : Intern UInt16}
    (adds : Intern.Adds step)
    (found : ∀ p : Pool, p.Sound → (step.run p).2.failure = none →
      isIt (step.run p).2 (step.run p).1)
    (kept : ∀ {p q : Pool} {index : UInt16}, p.Grows q → isIt p index → isIt q index)
    (shows : ∀ (p : Pool) (stands : Standing) (i : Instruction), Pushes (isIt p) i →
      Shows p stands call [i]) :
    Appends (intern step >>= loadConstant) fun p item => item.IsFor p call :=
  appends_intern isIt adds found kept (appends_loadConstant shows)

theorem appends_entry (proper : c.isProper = true)
    (shows : ∀ (p : Pool) (stands : Standing) (i : Instruction), Pushes (p.Has · c) i →
      Shows p stands call [i]) :
    Appends (intern (Pool.intern c) >>= loadConstant) fun p item => item.IsFor p call :=
  appends_constant (fun p => (p.Has · c)) (Pool.adds_intern c proper)
    (fun _ sound fine => has_intern sound fine) (fun grows => grows.keeps _ _) shows

theorem appends_wideEntry (proper : c.isProper = true)
    (shows : ∀ (p : Pool) (stands : Standing) (pc : Nat) (index : UInt16), p.Has index c →
      Shows p stands call [{ pc, op := .ldc2W, args := [(index.toNat : Int)] }]) :
    Appends (intern (Pool.intern c) >>= fun index => emit 2 .ldc2W (u2 index))
      fun p item => item.IsFor p call := by
  refine appends_intern (fun p => (p.Has · c)) (Pool.adds_intern c proper)
    (fun _ sound fine => has_intern sound fine) (fun grows => grows.keeps _ _) fun index => ?_
  refine appends_emit (fun p here => isFor_index (by decide) ?_) 2
  exact fun pc stands => shows p stands pc index here

theorem appends_int (n : Int32) : Appends (int n) fun p item => item.IsFor p (.int n) := by
  refine Appends.ite (fun small => ?_) fun _ => Appends.ite (fun byte => ?_) fun _ =>
    Appends.ite (fun short => ?_) fun _ => ?_
  · have forms : ∀ k < 7, (⟨byteOfInt (k + 2 : Nat)⟩ : Opcode).HasForm 0 := by decide
    have form := forms (n.toInt + 1).toNat (by omega)
    rw [show (((n.toInt + 1).toNat + 2 : Nat) : Int) = 3 + n.toInt by omega] at form
    exact appends_emit (fun p => isFor_plain form fun pc _ => .iconst pc n small) 1
  · exact appends_emit (fun p => .bytes fun pc _ =>
      ⟨_, rfl, Scan.encodes_bipush byte.1 byte.2, .bipush pc n⟩) 1
  · exact appends_emit (fun p => .bytes fun pc _ =>
      ⟨_, rfl, Scan.encodes_sipush short.1 short.2, .sipush pc n⟩) 1
  · exact appends_entry rfl fun p stands i pushes => .int n i pushes

theorem appends_long (bits : UInt64) :
    Appends (long bits) fun p item => item.IsFor p (.long bits) := by
  refine Appends.ite (fun small => ?_) fun _ => ?_
  · have form : (Opcode.lconst0.plus bits.toNat).HasForm 0 := by
      rcases small with rfl | rfl <;> decide
    exact appends_emit (fun p => isFor_plain form fun pc _ => .lconst pc bits small) 2
  · exact appends_wideEntry rfl fun p stands pc index here => .long pc bits index here

theorem appends_float (bits : UInt32) :
    Appends (float bits) fun p item => item.IsFor p (.float bits) := by
  refine Appends.ite (fun zero => ?_) fun _ => Appends.ite (fun one => ?_) fun _ =>
    Appends.ite (fun two => ?_) fun _ => ?_
  · refine appends_emit (fun p => isFor_plain (by decide) ?_) 1
    exact fun pc _ => .fconst pc 0 bits (by simp [zero])
  · refine appends_emit (fun p => isFor_plain (by decide) ?_) 1
    exact fun pc _ => .fconst pc 1 bits (by simp [one])
  · refine appends_emit (fun p => isFor_plain (by decide) ?_) 1
    exact fun pc _ => .fconst pc 2 bits (by simp [two])
  · exact appends_entry rfl fun p stands i pushes => .float bits i pushes

theorem appends_double (bits : UInt64) :
    Appends (double bits) fun p item => item.IsFor p (.double bits) := by
  refine Appends.ite (fun zero => ?_) fun _ => Appends.ite (fun one => ?_) fun _ => ?_
  · refine appends_emit (fun p => isFor_plain (by decide) ?_) 2
    exact fun pc _ => .dconst pc 0 bits (by simp [zero])
  · refine appends_emit (fun p => isFor_plain (by decide) ?_) 2
    exact fun pc _ => .dconst pc 1 bits (by simp [one])
  · exact appends_wideEntry rfl fun p stands pc index here => .double pc bits index here

theorem appends_string (text : Text) :
    Appends (string text) fun p item => item.IsFor p (.string text) :=
  appends_constant (fun p => (p.IsString · text)) (Pool.adds_string text)
    (fun _ sound fine => isString_string sound fine) (fun grows => .grow grows)
    fun _ _ i pushes => .string text i pushes

theorem appends_classConst (name : Text) :
    Appends (classConst name) fun p item => item.IsFor p (.classConst name) :=
  appends_constant (fun p => (p.IsClass · name)) (adds_class name)
    (fun _ sound fine => isClass_class sound fine) (fun grows => .grow grows)
    fun _ _ i pushes => .classConst name i pushes

theorem appends_null : Appends null fun p item => item.IsFor p .null :=
  appends_emit (fun _ => isFor_plain (by decide) fun pc _ => .null pc) 1

theorem appends_op (form : o.HasForm 0)
    (shows : ∀ (p : Pool) (stands : Standing) (pc : Nat), Shows p stands call [{ pc, op := o }]) :
    Appends (op o) fun p item => item.IsFor p call :=
  (appends_emit (fun p => isFor_plain form fun pc stands => shows p stands pc) _).emptyingIf _

theorem appends_typeIndex {good : Pool → Item → Prop} {next : Nat → Asm Unit}
    (appends : ∀ family < 5, valueFamily desc = some family → Appends (next family) good) :
    Appends (typeIndex desc >>= next) good := by
  intro a b ran sound
  unfold typeIndex firstOf at ran
  cases first : desc.first? with
  | none =>
    rw [first] at ran
    cases ran
  | some letter =>
    rw [first] at ran
    refine appends _ ?_ (by rw [valueFamily, first]; rfl) a b ran sound
    split_ifs <;> decide

theorem u2OfInt_toNat (n : UInt16) : u2OfInt (n.toNat : Int) = u2 n := by
  have small := n.toNat_lt
  rw [u2OfInt, Int.emod_eq_of_lt (by omega) (by omega), Int.toNat_natCast, UInt16.ofNat_toNat]

theorem byteOfInt_natCast (n : Nat) : byteOfInt (n : Int) = UInt8.ofNat n := by
  have reduced : ((n : Int) % 256).toNat = n % 256 := by omega
  rw [byteOfInt, reduced]
  exact UInt8.toNat_inj.mp (by simp)

theorem appends_access {base short : Opcode} (built : ∀ k < 20, (short.plus k).HasForm 0)
    (given : ∀ k < 5, (base.plus k).HasForm 1 ∧ base.plus k ≠ .iinc) {slot : UInt16} (delta : Int)
    (shows : ∀ (p : Pool) (stands : Standing) (family : Nat), valueFamily desc = some family →
      ∀ i, Accesses base short family slot i → Shows p stands call [i]) :
    Appends (access base short desc slot.toNat delta) fun p item => item.IsFor p call := by
  refine appends_typeIndex fun family few typed => Appends.after_room ?_ _
  refine Appends.ite (fun small => ?_) fun _ => Appends.ite (fun byte => ?_) fun _ => ?_
  · have small : slot.toNat ≤ 3 := by omega
    have form := built (4 * family + slot.toNat) (by omega)
    have same : (⟨(short.plus (family * 4)).code + byteOfInt slot.toNat⟩ : Opcode) =
        short.plus (4 * family + slot.toNat) := by
      rw [byteOfInt_natCast, Opcode.plus, Opcode.plus, UInt8.ofNat_add, UInt8.add_assoc,
        Nat.mul_comm]
    rw [same]
    refine appends_emit (fun p => isFor_plain form fun pc stands => ?_) delta
    exact shows p stands family typed _ (.builtIn pc small)
  · obtain ⟨form, -⟩ := given family few
    have value : (byteOfInt slot.toNat).toNat = slot.toNat := by
      rw [byteOfInt_natCast, UInt8.toNat_ofNat', Nat.mod_eq_of_lt (by omega)]
    refine appends_emit (fun p => isFor_byte form fun pc stands => ?_) delta
    rw [value]
    exact shows p stands family typed _ (.operand pc false)
  · obtain ⟨-, different⟩ := given family few
    rw [u2OfInt_toNat]
    refine appends_emit (fun p => .bytes fun pc stands => ?_) delta
    exact ⟨_, rfl, Scan.encodes_wide different slot,
      shows p stands family typed _ (.operand pc true)⟩

theorem appends_load (desc : Text) (slot : UInt16) :
    Appends (load desc slot.toNat) fun p item => item.IsFor p (.load desc slot) :=
  appends_access (by decide) (by decide) _
    fun _ _ family typed i accesses => .load desc slot family typed i accesses

theorem appends_store (desc : Text) (slot : UInt16) :
    Appends (store desc slot.toNat) fun p item => item.IsFor p (.store desc slot) :=
  appends_access (by decide) (by decide) _
    fun _ _ family typed i accesses => .store desc slot family typed i accesses

theorem appends_increment (slot : UInt16) {n : Int32} (low : -32768 ≤ n.toInt)
    (high : n.toInt ≤ 32767) :
    Appends (increment slot.toNat n.toInt) fun p item => item.IsFor p (.increment slot n) := by
  refine Appends.after_room (Appends.ite (fun small => ?_) fun _ => ?_) _
  · have value : (byteOfInt slot.toNat).toNat = slot.toNat := by
      rw [byteOfInt_natCast, UInt8.toNat_ofNat', Nat.mod_eq_of_lt (by omega)]
    refine appends_emit (fun p => .bytes fun pc _ =>
      ⟨_, rfl, Scan.encodes_iinc (byteOfInt slot.toNat) small.2.1 small.2.2, ?_⟩) 0
    rw [value]
    exact .increment pc slot n false
  · rw [u2OfInt_toNat]
    exact appends_emit (fun p => .bytes fun pc _ =>
      ⟨_, rfl, Scan.encodes_wide_iinc slot low high, .increment pc slot n true⟩) 0

theorem appends_return (desc : Text) :
    Appends (return_ desc) fun p item => item.IsFor p (.return_ desc) := by
  refine Appends.ite (fun nothing => ?_) fun value => ?_
  · subst nothing
    exact appends_op (by decide) fun _ _ pc => .return_ pc
  · have forms : ∀ k < 5, (Opcode.ireturn.plus k).HasForm 0 := by decide
    refine appends_typeIndex fun family few typed => ?_
    exact appends_op (forms family few) fun _ _ pc => .returnValue pc desc value family typed

theorem elementPlace_lt {b : UInt8} {k : Nat} (place : elementPlace b = some k) : k < 8 := by
  unfold elementPlace at place
  split_ifs at place <;> cases place <;> decide

theorem appends_elementOp {base : Opcode} {element : Text}
    (forms : ∀ k < 8, (base.plus k).HasForm 0)
    (shows : ∀ (p : Pool) (stands : Standing) (pc : Nat) (o : Opcode),
      elementOpcode base element = some o → Shows p stands call [{ pc, op := o }]) :
    Appends (elementOp base element) fun p item => item.IsFor p call := by
  intro a b ran sound
  unfold elementOp elementIndex firstOf at ran
  cases first : element.first? with
  | none =>
    rw [first] at ran
    cases ran
  | some letter =>
    rw [first] at ran
    have form : (((elementPlace letter).map base.plus).getD .nop).HasForm 0 := by
      cases place : elementPlace letter with
      | none =>
        exact (by decide : Opcode.nop.HasForm 0)
      | some k => exact forms k (elementPlace_lt place)
    have typed : elementOpcode base element =
        some (((elementPlace letter).map base.plus).getD .nop) := by
      rw [elementOpcode, first]
      rfl
    exact appends_op form (fun p stands pc => shows p stands pc _ typed) a b ran sound

theorem appends_field (known : o ∈ [Opcode.getstatic, .putstatic, .getfield, .putfield])
    (owner name desc : Text) :
    Appends (field o owner name desc) fun p item => item.IsFor p (.field o owner name desc) := by
  have form : o.HasForm 2 :=
    (by decide : ∀ o ∈ [Opcode.getstatic, .putstatic, .getfield, .putfield], o.HasForm 2) o known
  refine appends_intern (fun p => (p.IsMember .fieldRef · owner name desc))
    (adds_fieldRef owner name desc) (fun _ sound fine => isMember_intern sound (fun _ _ => rfl) rfl fine)
    (fun grows => .grow grows) fun index => ?_
  exact appends_emit (fun p here => isFor_index form fun pc stands =>
    .field pc o owner name desc index here) _

theorem appends_typeOp (form : o.HasForm 2) {name : Text}
    (shows : ∀ (p : Pool) (stands : Standing) (pc : Nat) (index : UInt16),
      p.IsClass index name → Shows p stands call [{ pc, op := o, args := [(index.toNat : Int)] }]) :
    Appends (typeOp o name) fun p item => item.IsFor p call := by
  refine appends_intern (fun p => (p.IsClass · name)) (adds_class name)
    (fun _ sound fine => isClass_class sound fine) (fun grows => .grow grows) fun index => ?_
  exact appends_emit (fun p here => isFor_index form fun pc stands =>
    shows p stands pc index here) _

theorem arrayCode?_eq (b : UInt8) : arrayCode? b = primitiveCode? b := by
  have all : ∀ b : Fin 256, arrayCode? ⟨⟨b⟩⟩ = primitiveCode? ⟨⟨b⟩⟩ := by decide +kernel
  exact all b.toFin

theorem appends_newArray (element : Text) :
    Appends (newArray element) fun p item => item.IsFor p (.newArray element) := by
  unfold newArray
  refine appends_lift fun letter first => ?_
  have letter? : element.first? = some letter := by
    cases found : element.first? with
    | none =>
      rw [found] at first
      cases first
    | some other =>
      rw [found] at first
      cases first
      rfl
  cases primitive : primitiveCode? letter with
  | some code =>
    refine appends_emit (fun p => isFor_byte (by decide) ?_) 0
    exact fun pc stands => .newarray pc element code
      (by rwa [letter?, Option.bind_some, arrayCode?_eq])
  | none =>
    refine appends_typeOp (by decide) fun p stands pc index here => ?_
    exact .anewarray pc element index (by rwa [letter?, Option.bind_some, arrayCode?_eq]) here

theorem appends_multiArray (desc : Text) {dims : Int} (low : 0 ≤ dims) (high : dims ≤ 255) :
    Appends (multiArray desc dims) fun p item => item.IsFor p (.multiArray desc dims) := by
  refine appends_intern (fun p => (p.IsClass · desc)) (adds_class desc)
    (fun _ sound fine => isClass_class sound fine) (fun grows => .grow grows) fun index => ?_
  have value : ((byteOfInt dims).toNat : Int) = dims := by
    obtain ⟨count, rfl⟩ := Int.eq_ofNat_of_zero_le low
    rw [byteOfInt_natCast, UInt8.toNat_ofNat', Nat.mod_eq_of_lt (by omega)]
  refine appends_emit (fun p here => .bytes fun pc stands => ?_) _
  refine ⟨_, rfl, Scan.encodes_multianewarray index (byteOfInt dims), ?_⟩
  rw [value]
  exact .multiArray pc desc dims index here

theorem appends_invoke
    (known : o ∈ [Opcode.invokevirtual, .invokespecial, .invokestatic, .invokeinterface])
    (owner name desc : Text) (ofInterface : Bool) :
    Appends (invoke o owner name desc ofInterface)
      fun p item => item.IsFor p (.invoke o owner name desc ofInterface) := by
  refine appends_lift fun (args, result) _ => ?_
  refine appends_intern (fun p => (p.IsMember (if ofInterface || o == .invokeinterface then
    .interfaceMethodRef else .methodRef) · owner name desc)) ?_ ?_ (fun grows => .grow grows)
    fun index => ?_
  · exact (adds_interfaceMethodRef owner name desc).ite (adds_methodRef owner name desc)
  · intro p sound fine
    refine isMember_intern sound ?_ ?_ fine
    · intro a b
      split <;> rfl
    · split <;> rfl
  · by_cases interface : o = .invokeinterface
    · subst interface
      refine appends_emit (fun p here => .bytes fun pc stands => ?_) _
      exact ⟨_, rfl, Scan.encodes_invokeinterface index _,
        .invoke pc _ owner name desc ofInterface index here⟩
    · have form : o.HasForm 2 :=
        (by decide : ∀ o ∈ [Opcode.invokevirtual, .invokespecial, .invokestatic,
          .invokeinterface], o ≠ .invokeinterface → o.HasForm 2)
          o known interface
      simp only [interface, if_false, append_nil]
      exact appends_emit (fun p here => isFor_index form fun pc stands =>
        .invoke pc o owner name desc ofInterface index here) _

theorem appends_jump (branch : o.isBranch = true) (once : o ≠ .jsr) (target : CodeLabel) :
    Appends (jump o target) fun p item => item.IsFor p (.jump o target) :=
  (appends_append (fun _ => .jump false rfl branch once) _).emptyingIf _

/-! ## Switches -/

theorem consecutive {count : Nat} (greatest : low.toInt + count ≤ 2147483648) :
    (range count).map (fun i => (low + Int32.ofNat i).toInt) =
      (range count).map fun (i : Nat) => low.toInt + (i : Int) := by
  have least := low.le_toInt
  refine map_congr_left fun i inside => ?_
  have few := mem_range.mp inside
  rw [Int32.toInt_add, Int32.toInt_ofNat', Int.add_bmod_bmod]
  change Int.bmod _ 4294967296 = _
  exact Int.bmod_eq_of_le (by omega) (by omega)

theorem appends_table (greatest : low.toInt + targets.length ≤ 2147483648)
    (shows : ∀ (p : Pool) (stands : Standing) (pc : Nat) (at_ : CodeLabel → Nat),
      (∀ l ∈ default :: targets, stands l (at_ l)) →
      Shows p stands call [.table at_ pc low.toInt targets default]) :
    Appends (tableSwitch low targets default) fun p item => item.IsFor p call := by
  unfold tableSwitch
  rw [consecutive greatest]
  refine (appends_append (fun p => ?_) _).emptying
  exact .table low.toInt low.le_toInt greatest fun pc stands => shows p stands pc

theorem sortBranches_spec (branches : List (Int32 × CodeLabel)) :
    (sortBranches branches).Perm branches ∧
      (sortBranches branches).Pairwise fun a b => a.1 ≤ b.1 := by
  refine ⟨(mergeSort_perm _ _).trans (perm_quicksort _ _), ?_⟩
  have transitive : ∀ a b c : Int32 × CodeLabel, decide (a.1 ≤ b.1) = true →
      decide (b.1 ≤ c.1) = true → decide (a.1 ≤ c.1) = true := by grind
  have total : ∀ a b : Int32 × CodeLabel, (decide (a.1 ≤ b.1) || decide (b.1 ≤ a.1)) = true := by grind
  exact (pairwise_mergeSort transitive total _).imp of_decide_eq_true

theorem appends_lookup {keys : List Int32}
    (shows : ∀ (p : Pool) (stands : Standing) (pc : Nat)
      (branches : List (Int32 × CodeLabel)), branches.Perm (keys.zip targets) →
      branches.Pairwise (fun a b => a.1 ≤ b.1) → ∀ at_ : CodeLabel → Nat,
      (∀ l ∈ default :: branches.map Prod.snd, stands l (at_ l)) →
      Shows p stands call [.lookup at_ pc branches default]) :
    Appends (lookupSwitch keys targets default) fun p item => item.IsFor p call := by
  obtain ⟨same, sorted⟩ := sortBranches_spec (keys.zip targets)
  unfold lookupSwitch
  split
  · exact appends_lift fun _ fails => nomatch fails
  · refine (appends_append (fun p => ?_) (-1)).emptying
    exact .lookup (sortBranches (keys.zip targets)) fun pc stands => shows p stands pc _ same sorted

theorem foldl_choose_spec (relates : Int → Int → Prop) {choose : Int32 → Int32 → Int32}
    (reflexive : ∀ n, relates n n) (transitive : ∀ {l m n}, relates l m → relates m n → relates l n)
    (chosen : ∀ a b, choose a b = a ∧ relates a.toInt b.toInt ∨
      choose a b = b ∧ relates b.toInt a.toInt) (first : Int32) (rest : List Int32) :
    rest.foldl choose first ∈ first :: rest ∧
      ∀ key ∈ first :: rest, relates (rest.foldl choose first).toInt key.toInt := by
  induction rest generalizing first with
  | nil => exact ⟨mem_singleton_self _, by simpa using reflexive _⟩
  | cons second rest ih =>
    obtain ⟨member, related⟩ := ih (choose first second)
    have best := related _ mem_cons_self
    rw [foldl_cons]
    rcases chosen first second with ⟨same, other⟩ | ⟨same, other⟩
    · rw [same] at member related best ⊢
      refine ⟨?_, ?_⟩
      · rcases mem_cons.mp member with here | later
        · rw [here]
          exact mem_cons_self
        · exact .tail _ (.tail _ later)
      · rintro key (_ | ⟨_, _ | ⟨_, later⟩⟩)
        · exact best
        · exact transitive best other
        · exact related key (.tail _ later)
    · rw [same] at member related best ⊢
      refine ⟨.tail _ member, ?_⟩
      rintro key (_ | ⟨_, later⟩)
      · exact transitive best other
      · exact related key later

theorem foldl_min_spec (first : Int32) (rest : List Int32) :
    rest.foldl min first ∈ first :: rest ∧
      ∀ key ∈ first :: rest, (rest.foldl min first).toInt ≤ key.toInt := by
  refine foldl_choose_spec (· ≤ ·) Int.le_refl Int.le_trans (fun a b => ?_) first rest
  by_cases less : a ≤ b
  · exact .inl ⟨if_pos less, Int32.le_iff_toInt_le.mp less⟩
  · refine .inr ⟨if_neg less, ?_⟩
    rw [Int32.le_iff_toInt_le] at less
    omega

theorem foldl_max_spec (first : Int32) (rest : List Int32) :
    rest.foldl max first ∈ first :: rest ∧
      ∀ key ∈ first :: rest, key.toInt ≤ (rest.foldl max first).toInt := by
  refine foldl_choose_spec (fun m n => n ≤ m) Int.le_refl
    (fun first second => Int.le_trans second first) (fun a b => ?_) first rest
  by_cases less : a ≤ b
  · exact .inr ⟨if_pos less, Int32.le_iff_toInt_le.mp less⟩
  · refine .inl ⟨if_neg less, ?_⟩
    rw [Int32.le_iff_toInt_le] at less
    omega

theorem denseTargets_append (branches : List (Int32 × CodeLabel)) (branch : Int32 × CodeLabel)
    (low : Int32) (span : Nat) (default : CodeLabel) :
    denseTargets (branches ++ [branch]) low span default =
      (denseTargets branches low span default).setIfInBounds
        (branch.1.toInt - low.toInt).toNat branch.2 := by
  rw [denseTargets, foldl_append]
  rfl

theorem size_denseTargets (branches : List (Int32 × CodeLabel)) (low : Int32) (span : Nat)
    (default : CodeLabel) : (denseTargets branches low span default).size = span := by
  induction branches using List.reverseRecOn with
  | nil => simp [denseTargets]
  | append_singleton branches branch ih =>
    rw [denseTargets_append, Array.size_setIfInBounds, ih]

theorem getElem?_denseTargets (least : ∀ branch ∈ branches, low.toInt ≤ branch.1.toInt) (span : Nat)
    (default : CodeLabel) {i : Nat} (inside : i < span) :
    (denseTargets branches low span default)[i]? =
      some (targetOf branches default (low.toInt + i)) := by
  induction branches using List.reverseRecOn with
  | nil => simp [denseTargets, targetOf, inside]
  | append_singleton branches branch ih =>
    have here := ih fun branch member =>
      least branch (mem_append_left _ member)
    have above := least branch (mem_append_right _ mem_cons_self)
    have last : targetOf (branches ++ [branch]) default (low.toInt + i) =
        if branch.1.toInt = low.toInt + i then branch.2
        else targetOf branches default (low.toInt + i) := by
      rw [targetOf, reverse_append, reverse_singleton, singleton_append]
      by_cases same : branch.1.toInt = low.toInt + i
      · rw [if_pos same, find?_cons_of_pos (by simpa using same)]
        rfl
      · rw [if_neg same, find?_cons_of_neg (by simpa using same)]
        rfl
    rw [denseTargets_append, last, Array.getElem?_setIfInBounds]
    by_cases same : branch.1.toInt = low.toInt + i
    · have place : (branch.1.toInt - low.toInt).toNat = i := by omega
      rw [if_pos place, if_pos same, place, if_pos (Array.getElem?_eq_some_iff.mp here).1]
    · rw [if_neg (by omega), if_neg same, here]

theorem isTable_denseTargets {high : Int32} (lowest : low ∈ branches.map Prod.fst)
    (least : ∀ key ∈ branches.map Prod.fst, low.toInt ≤ key.toInt)
    (highest : high ∈ branches.map Prod.fst)
    (greatest : ∀ key ∈ branches.map Prod.fst, key.toInt ≤ high.toInt) (default : CodeLabel) :
    IsTable branches default low.toInt
      (denseTargets branches low (high.toInt - low.toInt + 1).toNat default).toList := by
  have below := greatest low lowest
  have last : low.toInt + ((denseTargets branches low (high.toInt - low.toInt + 1).toNat
      default).toList.length : Int) - 1 = high.toInt := by
    rw [Array.length_toList, size_denseTargets]
    omega
  have all : ∀ branch ∈ branches, low.toInt ≤ branch.1.toInt := fun branch member =>
    least _ (mem_map_of_mem member)
  refine ⟨⟨?_, all⟩, ?_, ?_⟩
  · obtain ⟨branch, member, rfl⟩ := mem_map.mp lowest
    exact ⟨branch, member, rfl⟩
  · rw [last]
    obtain ⟨branch, member, rfl⟩ := mem_map.mp highest
    exact ⟨⟨branch, member, rfl⟩, fun other member => greatest _ (mem_map_of_mem member)⟩
  · intro i target found
    rw [Array.getElem?_toList] at found
    have inside := (Array.getElem?_eq_some_iff.mp found).1
    rw [size_denseTargets] at inside
    rw [getElem?_denseTargets all _ default inside] at found
    exact (Option.some.inj found).symm

theorem appends_switch (keys : List Int32) (targets : List CodeLabel) (default : CodeLabel) :
    Appends (switch keys targets default)
      fun p item => item.IsFor p (.switch keys targets default) := by
  have lookup : Appends (lookupSwitch keys targets default)
      fun p item => item.IsFor p (.switch keys targets default) :=
    appends_lookup fun p stands pc branches same sorted =>
      .sparse pc keys targets default branches same sorted
  cases keys with
  | nil =>
    exact appends_lookup fun p stands pc branches same sorted =>
      .sparse pc [] targets default branches same sorted
  | cons first rest =>
    simp only [switch]
    split
    · exact lookup
    · split
      · exact appends_lift fun _ fails => by cases fails
      next room =>
        have all : ((first :: rest).zip targets).map Prod.fst = first :: rest :=
          map_fst_zip (Nat.le_of_not_lt room)
        obtain ⟨lowest, least⟩ := foldl_min_spec first rest
        obtain ⟨highest, greatest⟩ := foldl_max_spec first rest
        have below := greatest _ lowest
        have top := (rest.foldl max first).toInt_lt
        rw [← all] at lowest least highest greatest
        refine appends_table ?_ fun p stands pc => .dense pc _ targets default _ _
          (isTable_denseTargets lowest least highest greatest default)
        rw [Array.length_toList, size_denseTargets]
        omega

end Forms

end Asm

open Asm in
theorem Call.appends_run {call : Call} (adding : call.appends = true)
    (proper : call.isProper = true) : Asm.Appends call.run fun p item => item.IsFor p call := by
  cases call with
  | newLabel | mark | setInitialFrame | frame | line | catch_ => cases adding
  | op o =>
    simp only [isProper, Bool.and_eq_true, beq_iff_eq] at proper
    exact appends_op proper fun _ _ pc => .op pc o
  | int n => exact appends_int n
  | long bits => exact appends_long bits
  | float bits => exact appends_float bits
  | double bits => exact appends_double bits
  | string text => exact appends_string text
  | classConst name => exact appends_classConst name
  | null => exact appends_null
  | load desc slot => exact appends_load desc slot
  | store desc slot => exact appends_store desc slot
  | increment slot n =>
    simp only [isProper, Bool.and_eq_true, decide_eq_true_eq] at proper
    exact appends_increment slot proper.1 proper.2
  | return_ desc => exact appends_return desc
  | arrayLoad element =>
    exact appends_elementOp (by decide) fun _ _ pc o typed => .arrayLoad pc element o typed
  | arrayStore element =>
    exact appends_elementOp (by decide) fun _ _ pc o typed => .arrayStore pc element o typed
  | field o owner name desc => exact appends_field (of_decide_eq_true proper) owner name desc
  | invoke o owner name desc ofInterface =>
    exact appends_invoke (of_decide_eq_true proper) owner name desc ofInterface
  | typeOp o name =>
    have form : ∀ o ∈ [Opcode.new, .anewarray, .checkcast, .instanceof], o.HasForm 2 := by decide
    exact appends_typeOp (form o (of_decide_eq_true proper))
      fun _ _ pc index here => .typeOp pc o name index here
  | newArray element => exact appends_newArray element
  | multiArray desc dims =>
    simp only [isProper, Bool.and_eq_true, decide_eq_true_eq] at proper
    exact appends_multiArray desc proper.1 proper.2
  | jump o target =>
    simp only [isProper, Bool.and_eq_true, bne_iff_ne] at proper
    exact appends_jump proper.1 proper.2 target
  | tableSwitch low targets default =>
    exact appends_table (of_decide_eq_true proper) fun _ _ pc => .tableSwitch pc low targets default
  | lookupSwitch keys targets default =>
    exact appends_lookup fun _ _ pc branches same sorted =>
      .lookupSwitch pc keys targets default branches same sorted
  | switch keys targets default => exact appends_switch keys targets default

end DexLift.Jvm
