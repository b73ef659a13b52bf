import DexLift.Emit.Statement
import DexLift.Proofs.Ir.Evaluation
import DexLift.Proofs.Jvm.Scalars

/-!
# Adding in place

An assignment that adds a constant to an int in its own slot, or subtracts one from it, is
one instruction. What the slot holds behind the instruction is the sum or the difference,
as worlds with ints of 32 bits compute it. The instruction has 16 bits for the slot.
-/

namespace DexLift.Ir

open List
open Jvm (Activation Asm Scalar)

/-! ## Sums and differences -/

/-- Worlds whose ints have 32 bits and wrap around; `int` tells the int that a value is. -/
structure World.WrapsInts {V : Type} (w : World V) (int : V → Int32) : Prop where
  number : ∀ type bits operands,
    int (w.value (.const type (.number bits)) operands) = bits.toUInt32.toInt32
  add : ∀ type x y, type.kind = .int → int (w.value (.binary .add type) [x, y]) = int x + int y
  sub : ∀ type x y, type.kind = .int → int (w.value (.binary .sub type) [x, y]) = int x - int y

/-- Expressions that add an amount to a local. -/
inductive AddsTo (source : LocalId) : Expr → Int → Prop where
  | right {type : Ty} {x c : Expr} (isInt : type.kind = .int) (reads : x.local? = some source)
      (number : c.bits?.isSome) : AddsTo source (.node (.binary .add type) [x, c]) c.int32.toInt
  | left {type : Ty} {x c : Expr} (isInt : type.kind = .int) (reads : x.local? = some source)
      (number : c.bits?.isSome) : AddsTo source (.node (.binary .add type) [c, x]) c.int32.toInt
  | negated {type : Ty} {x c : Expr} (isInt : type.kind = .int) (reads : x.local? = some source)
      (number : c.bits?.isSome) : AddsTo source (.node (.binary .sub type) [x, c]) (-c.int32.toInt)

section Computing

variable {V : Type} {w : World V} {int : V → Int32} {env : Env V} {caught : Option V}
  {history after : History V} {v : V} {e x c : Expr} {source : LocalId} {op : Op} {type : Ty}
  {amount : Int}

theorem mem_uses_of_reads (reads : x.local? = some source) : source ∈ x.uses := by
  obtain ⟨head, args⟩ := x
  cases head with
  | read id =>
    cases reads
    exact mem_cons_self
  | _ => cases reads

theorem AddsTo.mem_uses (adds : AddsTo source e amount) : source ∈ e.uses := by
  cases adds with
  | right isInt reads number | left isInt reads number | negated isInt reads number =>
    rw [Expr.uses_inner rfl]
    simp [mem_uses_of_reads reads]

theorem env_of_reads (reads : x.local? = some source)
    (done : evaluate w env caught history x = some (after, .ok v)) : env source = some v := by
  obtain ⟨head, args⟩ := x
  cases head with
  | read id =>
    cases reads
    rw [evaluate, Option.map_eq_some_iff] at done
    obtain ⟨u, set, same⟩ := done
    cases same
    exact set
  | _ => cases reads

theorem World.WrapsInts.of_number (wraps : w.WrapsInts int) (number : c.bits?.isSome)
    (done : evaluate w env caught history c = some (after, .ok v)) : int v = c.int32 := by
  obtain ⟨head, args⟩ := c
  cases head with
  | const type value =>
    cases value with
    | number bits =>
      rw [evaluate_inner rfl] at done
      obtain ⟨_, operands, -, computed⟩ := andThen_eq_ok done
      cases computed
      exact wraps.number type bits operands
    | _ => cases number
  | _ => cases number

theorem exists_operands (calm : (Head.binary op type).throws = false)
    (done : evaluate w env caught history (.node (.binary op type) [x, c]) = some (after, .ok v)) :
    ∃ between a b, evaluate w env caught history x = some (between, .ok a) ∧
      evaluate w env caught between c = some (after, .ok b) ∧
      v = w.value (.binary op type) [a, b] := by
  rw [evaluate_inner rfl] at done
  obtain ⟨late, values, operands, computed⟩ := andThen_eq_ok done
  rw [evaluateAll_cons] at operands
  obtain ⟨between, a, first, rest⟩ := andThen_eq_ok operands
  obtain ⟨_, others, second, paired⟩ := andThen_eq_ok rest
  rw [evaluateAll_cons] at second
  obtain ⟨_, b, last, ended⟩ := andThen_eq_ok second
  cases ended
  cases paired
  rw [World.compute, calm, if_neg Bool.false_ne_true] at computed
  cases computed
  exact ⟨between, a, b, first, last, rfl⟩

theorem AddsTo.int_eq (adds : AddsTo source e amount) (wraps : w.WrapsInts int)
    (done : evaluate w env caught history e = some (after, .ok v)) :
    ∃ u, env source = some u ∧ int v = int u + Int32.ofInt amount := by
  cases adds with
  | @right type x c isInt reads number =>
    obtain ⟨between, a, b, first, second, rfl⟩ := exists_operands rfl done
    refine ⟨a, env_of_reads reads first, ?_⟩
    rw [wraps.add _ _ _ isInt, wraps.of_number number second, Int32.ofInt_toInt]
  | @left type x c isInt reads number =>
    obtain ⟨between, b, a, first, second, rfl⟩ := exists_operands rfl done
    refine ⟨a, env_of_reads reads second, ?_⟩
    rw [wraps.add _ _ _ isInt, wraps.of_number number first, Int32.ofInt_toInt, Int32.add_comm]
  | @negated type x c isInt reads number =>
    obtain ⟨between, a, b, first, second, rfl⟩ := exists_operands rfl done
    refine ⟨a, env_of_reads reads first, ?_⟩
    rw [wraps.sub _ _ _ isInt, wraps.of_number number second, Int32.ofInt_neg, Int32.ofInt_toInt,
      Int32.sub_eq_add_neg]

end Computing

/-! ## What is emitted -/

namespace Method

variable {m : Method} {target : LocalId} {e x c : Expr} {type : Ty} {amount n : Int}

/-- What it takes to add in place. -/
structure InPlace (m : Method) (target : LocalId) (e : Expr) (amount : Int) (source : LocalId) :
    Prop where
  adds : AddsTo source e amount
  sameSlot : (m.local_ source).slot = (m.local_ target).slot
  low : -32768 ≤ amount
  high : amount ≤ 32767

theorem inPlace_of_amount
    (found : (match x.local?, c.bits? with
      | some source, some _ =>
        if type.kind = .int ∧ m.localType target = .int ∧
            (m.local_ source).slot = (m.local_ target).slot ∧ -32768 ≤ n ∧ n ≤ 32767 then some n
        else none
      | _, _ => none) = some amount)
    (adds : ∀ source, type.kind = .int → x.local? = some source → c.bits?.isSome →
      AddsTo source e n) : ∃ source, m.InPlace target e amount source := by
  split at found
  next source bits reads number =>
    split at found
    next fits =>
      cases found
      obtain ⟨isInt, -, sameSlot, low, high⟩ := fits
      exact ⟨source, adds source isInt reads (number ▸ rfl), sameSlot, low, high⟩
    next => cases found
  next => cases found

theorem inPlace_of_increment? (found : m.increment? target e = some amount) :
    ∃ source, m.InPlace target e amount source := by
  unfold increment? at found
  dsimp only at found
  split at found
  · split at found
    · exact inPlace_of_amount found fun source isInt reads number => .left isInt reads number
    · exact inPlace_of_amount found fun source isInt reads number => .right isInt reads number
  · exact inPlace_of_amount found fun source isInt reads number => .negated isInt reads number
  · cases found

theorem local?_of_increment? (found : m.increment? target e = some amount) : e.local? = none := by
  obtain ⟨source, inPlace⟩ := inPlace_of_increment? found
  cases inPlace.adds <;> rfl

theorem assign_of_increment? (h : Option Hierarchy) {slot : Nat}
    (found : m.increment? target e = some amount) (held : (m.local_ target).slot = some slot) :
    m.assign h target e = Asm.increment slot amount := by
  unfold assign
  rw [local?_of_increment? found, found, held]
  rfl

/-- The locals that an expression reads have the ints of their values in their slots. -/
def Holds {V : Type} (m : Method) (f : Activation) (int : V → Int32) (env : Env V) (e : Expr) :
    Prop :=
  ∀ id ∈ e.uses, ∀ slot v, (m.local_ id).slot = some slot → env id = some v →
    f.locals slot = some (.int (int v))

end Method

/-- Every constant is pushed as it is. And adding in place performs an addition on the slot of the
target, as far as 16 bits tell the slot; so where they do, the slot holds the int of the value that
the expression has, and no other slot changes. -/
theorem scalars_exact (m : Method) (h : Option Hierarchy) (target : LocalId) (e : Expr) :
    (∀ n, Asm.PushesScalar (Asm.int n) (.int n)) ∧
    (∀ bits, Asm.PushesScalar (Asm.long bits) (.long bits)) ∧
    (∀ bits, Asm.PushesScalar (Asm.float bits) (.float bits)) ∧
    (∀ bits, Asm.PushesScalar (Asm.double bits) (.double bits)) ∧
    ∀ (amount : Int) (slot : Nat),
      m.increment? target e = some amount → (m.local_ target).slot = some slot →
        Asm.Performs (m.assign h target e) 0 0
            (fun f => f.add? (slot % 65536) (Int32.ofInt amount)) ∧
          (slot < 65536 → ∀ {V : Type} (w : World V) (int : V → Int32) (f : Activation)
            (env : Env V) (caught : Option V) (history after : History V) (v : V),
              w.WrapsInts int → m.Holds f int env e →
                evaluate w env caught history e = some (after, .ok v) →
                  f.add? (slot % 65536) (Int32.ofInt amount) =
                    some (f.setLocal slot (.int (int v)))) := by
  refine ⟨Asm.pushesScalar_int, Asm.pushesScalar_long, Asm.pushesScalar_float,
    Asm.pushesScalar_double, ?_⟩
  intro amount slot found held
  obtain ⟨source, inPlace⟩ := Method.inPlace_of_increment? found
  have low := inPlace.low
  have high := inPlace.high
  refine ⟨?_, ?_⟩
  · have same : (Int32.ofInt amount).toInt = amount := by
      exact Int32.toInt_ofInt_of_le (by omega) (by omega)
    have performs := Asm.performs_increment slot (n := Int32.ofInt amount) (by omega) (by omega)
    rwa [same, ← Method.assign_of_increment? h found held] at performs
  · intro named V w int f env caught history after v wraps holds done
    obtain ⟨u, set, value⟩ := inPlace.adds.int_eq wraps done
    have here := holds source inPlace.adds.mem_uses slot u (inPlace.sameSlot.trans held) set
    rw [Nat.mod_eq_of_lt named, Activation.add?_of_int here, value]

/-- Ints and nothing else: other values are 0. -/
def World.ofInts : World Int32 where
  value
    | .const _ (.number bits), _ => bits.toUInt32.toInt32
    | .binary .add _, [x, y] => x + y
    | .binary .sub _, [x, y] => x - y
    | _, _ => 0
  answer _ _ _ := .ok 0
  holds _ x y := x == y.getD 0
  key := id
  takes _ _ := false
  receiver := 0
  param _ := 0

theorem World.wrapsInts_ofInts : World.ofInts.WrapsInts id where
  number _ _ _ := rfl
  add _ _ _ _ := rfl
  sub _ _ _ _ := rfl

/-- A float that is not a number, and the greatest int from which -7 is subtracted. -/
theorem scalars_exact_wrapping :
    let m : Method := { (default : Method) with locals := #[{ type := .int, slot := some 300 }] }
    let e : Expr := .node (.binary .sub .int) [.leaf (.read 0), .leaf (.const .int (.number (-7)))]
    let f : Activation := ⟨fun slot => if slot = 300 then some (.int 2147483647) else none, []⟩
    let env : Env Int32 := fun id => if id = 0 then some 2147483647 else none
    (∃ b data, (Asm.float 0x7fc00001).run.run { pool := {} } = (.ok (), b) ∧
        Jvm.Assembler.Gains { pool := {} } b data 1 1 fun f =>
          some (f.push (.float 0x7fc00001))) ∧
      m.increment? 0 e = some 7 ∧ m.Holds f id env e ∧
      evaluate World.ofInts env none [] e = some ([], .ok (-2147483642)) ∧
      f.add? (300 % 65536) (Int32.ofInt 7) = some (f.setLocal 300 (.int (-2147483642))) := by
  intro m e f env
  have found : m.increment? 0 e = some 7 := by decide
  have holds : m.Holds f id env e := by
    intro id member slot v held set
    have first : id = 0 := mem_singleton.mp member
    subst first
    cases held
    cases set
    rfl
  have done : evaluate World.ofInts env none [] e = some ([], .ok (-2147483642)) := by
    decide
  refine ⟨?_, found, holds, done, ?_⟩
  · exact (scalars_exact m none 0 e).2.2.1 0x7fc00001 { pool := {} } Jvm.Pool.sound_empty rfl
  · exact ((scalars_exact m none 0 e).2.2.2.2 7 300 found rfl).2 (by decide) World.ofInts id f env
      none [] [] (-2147483642) World.wrapsInts_ofInts holds done

/-- A slot that needs 17 bits, and a local without a slot: another slot is added to. -/
theorem assign_elsewhere :
    let e : Expr := .node (.binary .add .int) [.leaf (.read 0), .leaf (.const .int (.number 1))]
    let far : Method :=
      { (default : Method) with locals := #[{ type := .int, slot := some 65536 }] }
    let bare : Method := { (default : Method) with locals := #[{ type := .int }] }
    let f : Activation := ⟨fun slot => some (.int (Int32.ofNat slot)), []⟩
    far.Holds f id (fun _ => some 65536) e ∧
      evaluate World.ofInts (fun _ => some 65536) none [] e = some ([], .ok 65537) ∧
      ((far.assign none 0 e).run.run { pool := {} }).2.items = #[.bytes [196, 132, 0, 0, 0, 1]] ∧
      Jvm.execute? {} f [196, 132, 0, 0, 0, 1] = some (f.setLocal 0 (.int 1)) ∧
      (f.setLocal 0 (.int 1)).locals 65536 = some (.int 65536) ∧
      ((bare.assign none 0 e).run.run { pool := {} }).2.items = #[.bytes [132, 255, 1]] := by
  refine ⟨?_, by decide, rfl, rfl, rfl, rfl⟩
  intro id member slot v held set
  have first : id = 0 := mem_singleton.mp member
  subst first
  cases held
  cases set
  rfl

end DexLift.Ir
