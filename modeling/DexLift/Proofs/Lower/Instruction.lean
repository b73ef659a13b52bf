import DexLift.Proofs.Dalvik.Machine
import DexLift.Proofs.Dalvik.Opcodes
import DexLift.Proofs.Ir.Tidy
import Mathlib.Data.List.Forall2

/-!
# What lowering an instruction emits

Lowering an instruction emits at most one statement. `Emits` says which one, in
terms of what the instruction does with registers: a register that is read turns
into the local it holds, the register that is written holds a new local
afterwards, and every other register holds what it held or nothing at all.

The operations of the lowering are steps over a frame that may fail. What is
needed of them is their results when they succeed, one equivalence for each.
-/

namespace DexLift.Lower

open Ir Dalvik List
open Dex (flow_of_runs)

/-! ## Control flow of opcodes -/

variable {i : Dex.Instruction} {op : Operation} {move : Option Dex.Instruction} {type : Ty}
  {head : Head} {file : Dex.File} {kind : InvokeKind} {held : Option LocalId} {place : Nat}
  {a : Action} {id : LocalId} {cause : Cause} {reg : UInt16} {detail : Text} {wide : Bool}
  {regs : List UInt16} {es : List Expr} {params : List Text}

/-- Where control goes after an instruction of some meaning. -/
def Meaning.flow : Meaning → Dex.Flow
  | .returnVoid | .returnValue => { returns := true }
  | .monitor _ | .checkCast | .arrayLength | .newInstance | .newArray | .filledNewArray
  | .fillArray | .arrayGet _ | .arrayPut _ | .fieldGet | .fieldPut | .staticGet | .staticPut
  | .invoke _ => .throwing
  | .throw => { throws := true }
  | .goto => { branches := true }
  | .switch => { switches := true, continues := true }
  | .branch _ | .branchZero _ => { branches := true, continues := true }
  | .compare op type | .binary op type | .binaryInPlace op type =>
    if (Head.binary op type).throws then .throwing else .plain
  | .literal op _ => if (Head.binary op .int).throws then .throwing else .plain
  | _ => .plain

def flowAgrees (op : Dex.Opcode) (flow : Dex.Flow) : Bool :=
  meaning op == .unsupported || flow == (meaning op).flow

theorem flow_of_meaning (op : Dex.Opcode) (supported : meaning op ≠ .unsupported) :
    op.flow = (meaning op).flow := by
  have agrees : flowAgrees op op.flow = true :=
    flow_of_runs (by decide) (by decide) op
  simpa [flowAgrees, supported] using agrees

theorem flow_of_result (op : Dex.Opcode)
    (kind : (op.isInvoke || op.within 0x24 0x25) = true) : op.flow = .throwing := by
  have flows : (!(op.isInvoke || op.within 0x24 0x25) || op.flow == .throwing) = true :=
    flow_of_runs (p := fun op flow => !(op.isInvoke || op.within 0x24 0x25) || flow == .throwing)
      (by decide) (by decide) op
  simpa [kind] using flows

/-- Whether an operation may raise an exception. -/
def throws : Operation → Bool
  | .define _ _ head _ | .discard head _ => head.throws
  | .store .. | .fill .. | .monitor .. | .throw _ => true
  | _ => false

/-- Whether control may go on behind an operation. -/
def continues : Operation → Bool
  | .goto _ | .return _ | .throw _ => false
  | _ => true

/-- The addresses an operation may lead to. -/
def jumps : Operation → List UInt32
  | .branch _ _ _ target | .goto target => [target]
  | .switch _ _ targets => targets
  | _ => []

def transfers : Operation → Bool
  | .branch .. | .goto _ | .switch .. | .return _ | .throw _ => true
  | _ => false

/-- Whether an operation chooses its way by a key. -/
def switches : Operation → Bool
  | .switch .. => true
  | _ => false

structure FlowsAs (i : Dex.Instruction) (op : Operation) : Prop where
  throws : throws op = i.op.flow.throws
  switches : switches op = i.op.flow.switches
  continues : continues op = i.op.flow.continues
  transfers : transfers op = (i.op.flow.branches || i.op.flow.switches || !i.op.flow.continues)
  jumps : ∀ addr ∈ jumps op,
    i.op.flow.branches = true ∧ addr = i.target ∨
      i.op.flow.switches = true ∧ addr ∈ Source.switchTargets i

/-- An operation that only computes something goes on behind it unless it throws. -/
theorem flowsAs_plain (flow : i.op.flow = if throws op then .throwing else .plain)
    (stays : transfers op = false) : FlowsAs i op := by
  have continues : continues op = true := by
    cases op <;> first | rfl | cases stays
  have none : jumps op = [] := by
    cases op <;> first | rfl | cases stays
  have single : switches op = false := by
    cases op <;> first | rfl | cases stays
  refine ⟨?_, ?_, ?_, ?_, by simp [none]⟩
  · rw [flow]
    cases throws op <;> rfl
  · rw [flow, single]
    cases throws op <;> rfl
  · rw [flow, continues]
    cases throws op <;> rfl
  · rw [flow, stays]
    cases throws op <;> rfl

theorem flowsAs_resultTo {operands : List Dalvik.Operand}
    (flow : i.op.flow = if head.throws then .throwing else .plain)
    (result : resultTo move type head operands = some op) : FlowsAs i op := by
  unfold resultTo at result
  split at result
  · cases result
    exact flowsAs_plain flow rfl
  · simp only [bind, pure, Option.bind_eq_some_iff, Option.some.injEq] at result
    obtain ⟨reg, -, rfl⟩ := result
    exact flowsAs_plain flow rfl

theorem flowsAs_callOf (flow : i.op.flow = .throwing) (call : callOf file kind i move = some op) :
    FlowsAs i op := by
  have ending : ∀ (ref : MethodRef) (regs : List Nat),
      (if ref.proto.result = "V" then some (.discard (.invoke kind ref) (regs.map .register))
        else resultTo move (.ofDesc ref.proto.result) (.invoke kind ref)
          (regs.map .register)) = some op → FlowsAs i op := by
    intro ref regs result
    split at result
    · cases result
      exact flowsAs_plain flow rfl
    · exact flowsAs_resultTo (by rw [flow]; rfl) result
  simp only [callOf, bind, pure, Option.bind_eq_some_iff] at call
  obtain ⟨ref, -, call⟩ := call
  split at call
  · obtain ⟨receiver, -, call⟩ := Option.bind_eq_some_iff.mp call
    obtain ⟨args, -, call⟩ := Option.bind_eq_some_iff.mp call
    exact ending ref (receiver ++ args) call
  · obtain ⟨receiver, -, call⟩ := Option.bind_eq_some_iff.mp call
    obtain ⟨args, -, call⟩ := Option.bind_eq_some_iff.mp call
    exact ending ref (receiver ++ args) call

theorem flowsAs_of_operation (does : operation? file i move = some op) : FlowsAs i op := by
  have supported : meaning i.op ≠ .unsupported := by
    intro unsupported
    simp [operation?, unsupported] at does
  have flow := flow_of_meaning i.op supported
  cases known : meaning i.op <;> rw [known] at flow <;>
    simp only [operation?, instructionSet_eq, known, Option.bind_eq_some_iff, Option.some.injEq,
      bind, pure, reduceCtorEq] at does
  case invoke kind => exact flowsAs_callOf flow does
  case filledNewArray =>
    obtain ⟨_, _, does⟩ := does
    exact flowsAs_resultTo (by rw [flow]; rfl) does
  case returnVoid =>
    subst does
    exact ⟨by rw [flow]; rfl, by rw [flow]; rfl, by rw [flow]; rfl, by rw [flow]; rfl,
      by simp [jumps]⟩
  case returnValue | throw =>
    obtain ⟨_, _, rfl⟩ := does
    exact ⟨by rw [flow]; rfl, by rw [flow]; rfl, by rw [flow]; rfl, by rw [flow]; rfl,
      by simp [jumps]⟩
  case goto =>
    subst does
    exact ⟨by rw [flow]; rfl, by rw [flow]; rfl, by rw [flow]; rfl, by rw [flow]; rfl,
      by simp [jumps, flow, Meaning.flow]⟩
  case branch cond =>
    obtain ⟨_, _, _, _, rfl⟩ := does
    exact ⟨by rw [flow]; rfl, by rw [flow]; rfl, by rw [flow]; rfl, by rw [flow]; rfl,
      by simp [jumps, flow, Meaning.flow]⟩
  case branchZero cond =>
    obtain ⟨_, _, rfl⟩ := does
    exact ⟨by rw [flow]; rfl, by rw [flow]; rfl, by rw [flow]; rfl, by rw [flow]; rfl,
      by simp [jumps, flow, Meaning.flow]⟩
  case switch =>
    split at does
    next keys targets payload =>
      obtain ⟨_, _, does⟩ := Option.bind_eq_some_iff.mp does
      cases does
      exact ⟨by rw [flow]; rfl, by rw [flow]; rfl, by rw [flow]; rfl, by rw [flow]; rfl,
        fun addr named => .inr ⟨by rw [flow]; rfl, by rwa [Source.switchTargets, payload]⟩⟩
    · cases does
  case fillArray =>
    split at does
    · obtain ⟨_, _, does⟩ := Option.bind_eq_some_iff.mp does
      cases does
      exact flowsAs_plain flow rfl
    · cases does
  -- What is left computes something; the table says whether it throws.
  all_goals
    repeat obtain ⟨_, _, does⟩ := does
    exact flowsAs_plain flow rfl

/-! ## Emitted statements -/

/-- Whether a node computes something from its operands. -/
def operates : Head → Bool
  | .missing | .read _ | .caught _ _ | .this | .param _ => false
  | _ => true

/-- What an operand reads: the local that its register holds, or a constant. -/
inductive Reads (regs : Registers) : Dalvik.Operand → Expr → Prop where
  | register {r : Nat} {id : LocalId} (held : regs.getD r none = some id) :
      Reads regs (.register r) (.read id)
  | literal (n : Int32) : Reads regs (.literal n) (.ofInt n)

/-- One register holds something else; another holds what it held or nothing. -/
structure Puts (regs : Registers) (goal : Nat) (held : Option LocalId) (after : Registers) :
    Prop where
  size : after.size = regs.size
  there : after.getD goal none = held
  others : ∀ r, r ≠ goal → after.getD r none = regs.getD r none ∨ after.getD r none = none

/-- The statement an operation turns into, if any, and what the registers hold afterwards. Labels
stand for addresses, `behind` for the address of the next instruction, and `new` is the local that
is defined. -/
inductive Emits (labelOf : UInt32 → Label) (behind : Label) (new : LocalId) (regs : Registers) :
    Operation → Option Action → Registers → Prop where
  | nop : Emits labelOf behind new regs .nop none regs
  | copy {wide : Bool} {goal source : Nat} {after : Registers}
      (puts : Puts regs goal (regs.getD source none) after) :
      Emits labelOf behind new regs (.copy wide goal source) none after
  | receive {goal : Nat} {type : Ty} {desc : Text} {after : Registers}
      (puts : Puts regs goal (some new) after) :
      Emits labelOf behind new regs (.receive goal)
        (some (.identity new (.leaf (.caught type desc)))) after
  | define {goal : Nat} {type : Ty} {head : Head} {operands : List Dalvik.Operand} {args : List Expr}
      {after : Registers} (operator : operates head = true)
      (reads : List.Forall₂ (Reads regs) operands args) (puts : Puts regs goal (some new) after) :
      Emits labelOf behind new regs (.define goal type head operands)
        (some (.assign new (.node head args))) after
  | discard {head : Head} {operands : List Dalvik.Operand} {args : List Expr}
      (operator : operates head = true) (reads : List.Forall₂ (Reads regs) operands args) :
      Emits labelOf behind new regs (.discard head operands) (some (.void (.node head args))) regs
  | store {place : Head} {operands : List Dalvik.Operand} {args : List Expr} {value : Nat} {id : LocalId}
      (operator : operates place = true) (reads : List.Forall₂ (Reads regs) operands args)
      (held : regs.getD value none = some id) :
      Emits labelOf behind new regs (.store place operands value)
        (some (.store (.node place args) (.read id))) regs
  | fill {array : Nat} {data : FillData} {id : LocalId} (held : regs.getD array none = some id) :
      Emits labelOf behind new regs (.fill array data) (some (.fillArray (.read id) data)) regs
  | enter {object : Nat} {id : LocalId} (held : regs.getD object none = some id) :
      Emits labelOf behind new regs (.monitor true object) (some (.monitorEnter (.read id))) regs
  | exit {object : Nat} {id : LocalId} (held : regs.getD object none = some id) :
      Emits labelOf behind new regs (.monitor false object) (some (.monitorExit (.read id))) regs
  | branch {cond : Cond} {left right : Nat} {target : UInt32} {first second : LocalId}
      (held : regs.getD left none = some first) (held' : regs.getD right none = some second) :
      Emits labelOf behind new regs (.branch cond left (some right) target)
        (some (.branch cond (.read first) (some (.read second)) (labelOf target))) regs
  | branchZero {cond : Cond} {left : Nat} {target : UInt32} {id : LocalId}
      (held : regs.getD left none = some id) :
      Emits labelOf behind new regs (.branch cond left none target)
        (some (.branch cond (.read id) none (labelOf target))) regs
  | goto {target : UInt32} :
      Emits labelOf behind new regs (.goto target) (some (.goto (labelOf target))) regs
  | switch {value : Nat} {keys : List Int32} {targets : List UInt32} {id : LocalId}
      (held : regs.getD value none = some id) :
      Emits labelOf behind new regs (.switch value keys targets)
        (some (.switch (.read id) keys (targets.map labelOf) behind)) regs
  | returnVoid : Emits labelOf behind new regs (.return none) (some (.return none)) regs
  | returnValue {value : Nat} {id : LocalId} (held : regs.getD value none = some id) :
      Emits labelOf behind new regs (.return (some value)) (some (.return (some (.read id)))) regs
  | throw {value : Nat} {id : LocalId} (held : regs.getD value none = some id) :
      Emits labelOf behind new regs (.throw value) (some (.throw (.read id))) regs

theorem puts_set {regs : Registers} {goal : Nat} (inside : goal < regs.size)
    (held : Option LocalId) : Puts regs goal held (regs.setIfInBounds goal held) := by
  refine ⟨by simp, by rw [getD_set, if_pos ⟨rfl, inside⟩], ?_⟩
  intro r other
  left
  rw [getD_set, if_neg fun same => other same.1]

theorem Puts.clear {regs after : Registers} {goal : Nat} (puts : Puts regs goal held after)
    (other : place ≠ goal) : Puts regs goal held (after.setIfInBounds place none) := by
  refine ⟨by simpa using puts.size, ?_, ?_⟩
  · rw [getD_set, if_neg (by omega), puts.there]
  · intro r different
    rw [getD_set]
    split
    · exact .inr rfl
    · exact puts.others r different

/-- A method with one more statement, and one more local when the statement defines one. -/
structure Grows (m : Ir.Method) (a : Action) (grown : Ir.Method) : Prop where
  same : ∃ locals line, grown = { m with locals, stmts := m.stmts.push { action := a, line } }
  locals : grown.locals.size = m.locals.size + a.defines?.toList.length

theorem grows_plain (m : Ir.Method) (plain : a.defines? = none) (line : Option Nat) :
    Grows m a (m.newStmt { action := a, line }).2 :=
  ⟨⟨_, _, rfl⟩, by simp [plain]⟩

theorem grows_defining (m : Ir.Method) (defining : a.defines? = some id) (type : Ty)
    (line : Option Nat) : Grows m a ((m.newLocal type).2.newStmt { action := a, line }).2 :=
  ⟨⟨_, _, rfl⟩, by simp [defining]⟩

def Advances (frame : Frame) (after : Frame) : Option Action → Prop
  | none => after.method = frame.method ∧ after.stmts = frame.stmts
  | some a => Grows frame.method a after.method ∧
      after.stmts = frame.method.stmts.size :: frame.stmts

/-! ## Results of the steps -/

namespace Step

variable {α β : Type} {frame after : Frame}

theorem run_failAt {a : α} : ¬ (failAt cause reg : Step α).run frame = .ok (a, after) := by
  simp [failAt, Outcome.failWith]

theorem run_failWith {a : α} : ¬ (failWith cause detail : Step α).run frame = .ok (a, after) := by
  simp [failWith, Outcome.failWith]

variable {b : β}

theorem run_unless {refused : Prop} [Decidable refused] {next : Unit → Step β}
    (done : (if refused then failWith cause detail >>= next else next ()).run frame =
      .ok (b, after)) : (next ()).run frame = .ok (b, after) := by
  split at done
  · obtain ⟨_, _, failing, -⟩ := run_bind.mp done
    exact absurd failing run_failWith
  · exact done

theorem run_check :
    (check reg wide).run frame = .ok ((), after) ↔
      reg.toNat + (if wide then 1 else 0) < frame.registers.size ∧ frame = after := by
  unfold check
  rw [run_bind]
  constructor
  · rintro ⟨seen, middle, looked, rest⟩
    obtain ⟨rfl, rfl⟩ := run_get.mp looked
    by_cases outside : reg.toNat + (if wide then 1 else 0) ≥ frame.registers.size
    · rw [if_pos outside] at rest
      exact absurd rest run_failAt
    · rw [if_neg outside] at rest
      exact ⟨Nat.lt_of_not_le outside, (run_pure.mp rest).2⟩
  · rintro ⟨inside, rfl⟩
    refine ⟨frame, frame, run_get.mpr ⟨rfl, rfl⟩, ?_⟩
    rw [if_neg (Nat.not_le_of_lt inside)]
    exact run_pure.mpr ⟨rfl, rfl⟩

theorem run_read {e : Expr} (done : (read reg).run frame = .ok (e, after)) :
    ∃ id, frame.registers.getD reg.toNat none = some id ∧ e = .read id ∧ after = frame := by
  unfold read at done
  obtain ⟨_, middle, checked, rest⟩ := run_bind.mp done
  obtain ⟨_, rfl⟩ := run_check.mp checked
  obtain ⟨seen, middle, looked, rest⟩ := run_bind.mp rest
  obtain ⟨rfl, rfl⟩ := run_get.mp looked
  split at rest
  next id held =>
    obtain ⟨rfl, rfl⟩ := run_pure.mp rest
    exact ⟨id, held, rfl, rfl⟩
  · exact absurd rest run_failAt

theorem run_operand :
    (operand i place).run frame = .ok (reg, after) ↔ i.regs[place]? = some reg ∧ frame = after := by
  unfold operand
  rw [run_lift]
  cases i.regs[place]? <;> simp [Outcome.ofOption]

theorem run_emit {action : Action} :
    (emit action).run frame = .ok ((), after) ↔
      after = { frame with
        method := (frame.method.newStmt { action, line := frame.line }).2
        stmts := frame.method.stmts.size :: frame.stmts } := by
  constructor
  · intro done
    cases done
    rfl
  · rintro rfl
    rfl

theorem run_newLocal :
    (newLocal type).run frame = .ok (id, after) ↔
      id = frame.method.locals.size ∧
        after = { frame with method := (frame.method.newLocal type).2 } := by
  constructor
  · intro done
    cases done
    exact ⟨rfl, rfl⟩
  · rintro ⟨rfl, rfl⟩
    rfl

theorem run_put {reg : Nat} :
    (put reg held).run frame = .ok ((), after) ↔
      after = { frame with registers := frame.registers.setIfInBounds reg held } := by
  constructor
  · intro done
    cases done
    rfl
  · rintro rfl
    rfl

theorem run_forgetBefore {r : Nat} (done : (forgetBefore r).run frame = .ok ((), after)) :
    after = frame ∨ 0 < r ∧
      after = { frame with registers := frame.registers.setIfInBounds (r - 1) none } := by
  unfold forgetBefore at done
  split at done
  next positive =>
    obtain ⟨seen, looked, looking, done⟩ := run_bind.mp done
    obtain ⟨rfl, rfl⟩ := run_get.mp looking
    split at done
    · split at done
      · exact .inr ⟨positive, run_put.mp done⟩
      · exact .inl (run_pure.mp done).2.symm
    · exact .inl (run_pure.mp done).2.symm
  · exact .inl (run_pure.mp done).2.symm

theorem run_write {value : Expr} (done : (write reg value type).run frame = .ok ((), after)) :
    Puts frame.registers reg.toNat (some frame.method.locals.size) after.registers ∧
      Advances frame after (some (.assign frame.method.locals.size value)) := by
  unfold write at done
  obtain ⟨_, middle, checked, done⟩ := run_bind.mp done
  obtain ⟨inside, rfl⟩ := run_check.mp checked
  obtain ⟨id, made, making, done⟩ := run_bind.mp done
  obtain ⟨rfl, rfl⟩ := run_newLocal.mp making
  obtain ⟨_, emitted, emitting, done⟩ := run_bind.mp done
  cases run_emit.mp emitting
  obtain ⟨_, written, putting, done⟩ := run_bind.mp done
  cases run_put.mp putting
  have exists_ : reg.toNat < frame.registers.size := by omega
  have first := puts_set exists_ (some frame.method.locals.size)
  -- The half of a wide value in front of the register may be lost; nothing else happens at the end.
  have ending : ∀ widened : Frame,
      Puts frame.registers reg.toNat (some frame.method.locals.size) widened.registers →
      Advances frame widened (some (.assign frame.method.locals.size value)) →
      (forgetBefore reg.toNat).run widened = .ok ((), after) →
      Puts frame.registers reg.toNat (some frame.method.locals.size) after.registers ∧
        Advances frame after (some (.assign frame.method.locals.size value)) := by
    intro widened puts advances rest
    rcases run_forgetBefore rest with rfl | ⟨positive, rfl⟩
    · exact ⟨puts, advances⟩
    · exact ⟨puts.clear (by omega), advances⟩
  dsimp only at done
  split at done
  · obtain ⟨_, widened, widening, done⟩ := run_bind.mp done
    cases run_put.mp widening
    exact ending _ (first.clear (by omega))
      ⟨grows_defining frame.method rfl type frame.line, rfl⟩ done
  · exact ending _ first ⟨grows_defining frame.method rfl type frame.line, rfl⟩ done

theorem run_lift_bind {outcome : Outcome α} {next : α → Step β}
    (done : (liftM outcome >>= next : Step β).run frame = .ok (b, after)) :
    ∃ a, outcome = .ok a ∧ (next a).run frame = .ok (b, after) := by
  obtain ⟨a, _, lifted, rest⟩ := run_bind.mp done
  obtain ⟨result, rfl⟩ := run_lift.mp lifted
  exact ⟨a, result, rest⟩

theorem run_check_bind {next : Unit → Step β}
    (done : (check reg wide >>= next).run frame = .ok (b, after)) :
    reg.toNat + (if wide then 1 else 0) < frame.registers.size ∧
      (next ()).run frame = .ok (b, after) := by
  obtain ⟨_, _, checked, rest⟩ := run_bind.mp done
  obtain ⟨inside, rfl⟩ := run_check.mp checked
  exact ⟨inside, rest⟩

theorem run_read_bind {next : Expr → Step β} (done : (read reg >>= next).run frame = .ok (b, after)) :
    ∃ id, frame.registers.getD reg.toNat none = some id ∧
      (next (.read id)).run frame = .ok (b, after) := by
  obtain ⟨_, _, reading, rest⟩ := run_bind.mp done
  obtain ⟨id, held, rfl, rfl⟩ := run_read reading
  exact ⟨id, held, rest⟩

theorem run_operand_bind {next : UInt16 → Step β}
    (done : (operand i place >>= next).run frame = .ok (b, after)) :
    ∃ reg, i.regs[place]? = some reg ∧ (next reg).run frame = .ok (b, after) := by
  obtain ⟨reg, _, looked, rest⟩ := run_bind.mp done
  obtain ⟨found, rfl⟩ := run_operand.mp looked
  exact ⟨reg, found, rest⟩

theorem run_value_bind {next : Expr → Step β}
    (done : ((do read (← operand i place)) >>= next).run frame = .ok (b, after)) :
    ∃ reg id, i.regs[place]? = some reg ∧ frame.registers.getD reg.toNat none = some id ∧
      (next (.read id)).run frame = .ok (b, after) := by
  rw [bind_assoc] at done
  obtain ⟨reg, found, done⟩ := run_operand_bind done
  obtain ⟨id, held, done⟩ := run_read_bind done
  exact ⟨reg, id, found, held, done⟩

theorem run_read2_bind {first second : Nat} {next : Expr × Expr → Step β}
    (done : (read2 i first second >>= next).run frame = .ok (b, after)) :
    ∃ left right idLeft idRight, i.regs[first]? = some left ∧ i.regs[second]? = some right ∧
      frame.registers.getD left.toNat none = some idLeft ∧
      frame.registers.getD right.toNat none = some idRight ∧
      (next (.read idLeft, .read idRight)).run frame = .ok (b, after) := by
  simp only [read2, bind_assoc] at done
  obtain ⟨left, foundLeft, done⟩ := run_operand_bind done
  obtain ⟨idLeft, heldLeft, done⟩ := run_read_bind done
  obtain ⟨right, foundRight, done⟩ := run_operand_bind done
  obtain ⟨idRight, heldRight, done⟩ := run_read_bind done
  rw [pure_bind] at done
  exact ⟨left, right, idLeft, idRight, foundLeft, foundRight, heldLeft, heldRight, done⟩

theorem run_mapM_read (done : (regs.mapM read).run frame = .ok (es, after)) :
    List.Forall₂ (Reads frame.registers) (regs.map fun r => .register r.toNat) es ∧
      after = frame := by
  induction regs generalizing es with
  | nil =>
    obtain ⟨rfl, rfl⟩ := run_pure.mp done
    exact ⟨.nil, rfl⟩
  | cons reg rest ih =>
    rw [mapM_cons] at done
    obtain ⟨id, held, done⟩ := run_read_bind done
    obtain ⟨tail, middle, more, ending⟩ := run_bind.mp done
    obtain ⟨rfl, rfl⟩ := run_pure.mp ending
    obtain ⟨reads, same⟩ := ih more
    exact ⟨.cons (.register held) reads, same⟩

theorem run_arguments (done : (arguments regs params).run frame = .ok (es, after)) :
    ∃ firsts, argumentRegisters regs params = some firsts ∧
      List.Forall₂ (Reads frame.registers) (firsts.map .register) es ∧ after = frame := by
  induction params generalizing regs es with
  | nil =>
    obtain ⟨rfl, rfl⟩ := run_pure.mp done
    exact ⟨[], rfl, .nil, rfl⟩
  | cons param rest ih =>
    unfold arguments at done
    obtain ⟨reg, found, done⟩ := run_lift_bind done
    obtain ⟨id, held, done⟩ := run_read_bind done
    obtain ⟨tail, middle, more, ending⟩ := run_bind.mp done
    obtain ⟨rfl, rfl⟩ := run_pure.mp ending
    obtain ⟨firsts, named, reads, same⟩ := ih more
    have first : regs.head? = some reg := by
      cases head : regs.head? with
      | none => simp [head, Outcome.ofOption] at found
      | some other => simpa [head, Outcome.ofOption] using found
    refine ⟨reg.toNat :: firsts, ?_, .cons (.register held) reads, same⟩
    simp [argumentRegisters, first, named]

variable {next : List Expr → Step β}

theorem run_arguments_bind (done : (arguments regs params >>= next).run frame = .ok (b, after)) :
    ∃ firsts es, argumentRegisters regs params = some firsts ∧
      List.Forall₂ (Reads frame.registers) (firsts.map .register) es ∧
      (next es).run frame = .ok (b, after) := by
  obtain ⟨es, _, reading, rest⟩ := run_bind.mp done
  obtain ⟨firsts, named, reads, rfl⟩ := run_arguments reading
  exact ⟨firsts, es, named, reads, rest⟩

theorem run_mapM_read_bind (done : (regs.mapM read >>= next).run frame = .ok (b, after)) :
    ∃ es, List.Forall₂ (Reads frame.registers) (regs.map fun r => .register r.toNat) es ∧
      (next es).run frame = .ok (b, after) := by
  obtain ⟨es, _, reading, rest⟩ := run_bind.mp done
  obtain ⟨reads, rfl⟩ := run_mapM_read reading
  exact ⟨es, reads, rest⟩

/-! ## Instructions -/

variable {labelOf : UInt32 → Label} {behind : Label} {operands : List Dalvik.Operand} {args : List Expr}

/-- From one frame to another, an operation was lowered. -/
def Lowers (labelOf : UInt32 → Label) (behind : Label) (frame : Frame) (op : Operation)
    (after : Frame) : Prop :=
  ∃ emitted, Emits labelOf behind frame.method.locals.size frame.registers op emitted
      after.registers ∧ Advances frame after emitted

theorem lowers_emit (done : (emit a).run frame = .ok ((), after)) (plain : a.defines? = none)
    (emits : Emits labelOf behind frame.method.locals.size frame.registers op (some a)
      frame.registers) : Lowers labelOf behind frame op after := by
  cases run_emit.mp done
  exact ⟨some a, emits, grows_plain frame.method plain frame.line, rfl⟩

theorem lowers_define (done : (write reg (.node head args) type).run frame = .ok ((), after))
    (operator : operates head = true) (reads : List.Forall₂ (Reads frame.registers) operands args) :
    Lowers labelOf behind frame (.define reg.toNat type head operands) after := by
  obtain ⟨puts, advances⟩ := run_write done
  exact ⟨_, .define operator reads puts, advances⟩

theorem lowers_bindResult
    (done : (bindResult (.node head args) type move).run frame = .ok ((), after))
    (operator : operates head = true) (reads : List.Forall₂ (Reads frame.registers) operands args) :
    ∃ op, resultTo move type head operands = some op ∧ Lowers labelOf behind frame op after := by
  cases move with
  | none => exact ⟨_, rfl, lowers_emit done rfl (.discard operator reads)⟩
  | some move =>
    have writing : (operand move 0 >>= fun reg => write reg (.node head args) type).run frame =
        .ok ((), after) := by
      unfold bindResult at done
      exact run_unless done
    obtain ⟨reg, found, written⟩ := run_operand_bind writing
    refine ⟨.define reg.toNat type head operands, ?_, lowers_define written operator reads⟩
    rw [← head?_eq_getElem?] at found
    simp [resultTo, found]

theorem lowers_callWith {ref : MethodRef} {receiver : List Expr} (regs : List Nat)
    (done : (callWith ref kind i move receiver).run frame = .ok ((), after))
    (reads : List.Forall₂ (Reads frame.registers) (regs.map .register) receiver) :
    ∃ firsts op, argumentRegisters (i.regs.drop regs.length) ref.proto.params = some firsts ∧
      (if ref.proto.result = "V" then
        some (.discard (.invoke kind ref) ((regs ++ firsts).map .register))
      else resultTo move (.ofDesc ref.proto.result) (.invoke kind ref)
        ((regs ++ firsts).map .register)) = some op ∧
      Lowers labelOf behind frame op after := by
  have same : regs.length = receiver.length := by simpa using reads.length_eq
  unfold callWith at done
  obtain ⟨firsts, args, named, others, done⟩ := run_arguments_bind done
  have all : List.Forall₂ (Reads frame.registers) ((regs ++ firsts).map .register)
      (receiver ++ args) := by
    rw [map_append]
    exact rel_append reads others
  rw [same]
  dsimp only at done
  split at done
  next void =>
    exact ⟨firsts, _, named, if_pos void, lowers_emit (run_unless done) rfl (.discard rfl all)⟩
  next value =>
    obtain ⟨op, result, lowers⟩ := lowers_bindResult done rfl all
    exact ⟨firsts, op, named, (if_neg value).trans result, lowers⟩

theorem lowers_invoke (done : (invoke file kind i move).run frame = .ok ((), after)) :
    ∃ op, callOf file kind i move = some op ∧ Lowers labelOf behind frame op after := by
  unfold invoke at done
  obtain ⟨ref, found, done⟩ := run_lift_bind done
  have call : (if kind != .static then
      operand i 0 >>= fun reg => read reg >>= fun value => callWith ref kind i move [value]
      else callWith ref kind i move []).run frame = .ok ((), after) := by
    simpa only [pure_bind, callWith] using run_unless done
  by_cases receives : kind != .static
  · rw [if_pos receives] at call
    obtain ⟨reg, first, call⟩ := run_operand_bind call
    obtain ⟨id, held, call⟩ := run_read_bind call
    obtain ⟨firsts, op, named, result, lowers⟩ :=
      lowers_callWith [reg.toNat] call (.cons (Reads.register held) .nil)
    refine ⟨op, ?_, lowers⟩
    rw [← head?_eq_getElem?] at first
    rw [← result]
    simp at named
    simp [callOf, found, receives, first, named, Except.toOption]
  · rw [if_neg receives] at call
    obtain ⟨firsts, op, named, result, lowers⟩ :=
      lowers_callWith [] call .nil
    refine ⟨op, ?_, lowers⟩
    rw [← result]
    simp at named
    simp [callOf, found, receives, named, Except.toOption]

theorem lowers_instruction {plan : Plan}
    (done : (instruction file plan i move).run frame = .ok ((), after)) :
    ∃ op, operation? file i move = some op ∧
      Lowers plan.labelOf (plan.labelOf (i.addr + UInt32.ofNat i.size)) frame op after := by
  cases known : meaning i.op with simp only [instruction, known] at done
  | nop =>
    obtain ⟨-, rfl⟩ := run_pure.mp done
    exact ⟨.nop, by simp [operation?, known], none, .nop, rfl, rfl⟩
  | move wide =>
    obtain ⟨goal, foundGoal, done⟩ := run_operand_bind done
    obtain ⟨source, foundSource, done⟩ := run_operand_bind done
    obtain ⟨insideGoal, done⟩ := run_check_bind done
    obtain ⟨insideSource, done⟩ := run_check_bind done
    obtain ⟨_, _, looked, afterGet⟩ := run_bind.mp done
    obtain ⟨rfl, rfl⟩ := run_get.mp looked
    obtain ⟨_, _, putting, afterPut⟩ := run_bind.mp afterGet
    cases run_put.mp putting
    have first := puts_set (by omega : goal.toNat < frame.registers.size)
      (frame.registers.getD source.toNat none)
    refine ⟨.copy wide goal.toNat source.toNat,
      by simp [operation?, known, foundGoal, foundSource], none, ?_⟩
    split at afterPut
    · cases run_put.mp afterPut
      exact ⟨.copy (first.clear (by omega)), rfl, rfl⟩
    · obtain ⟨-, rfl⟩ := run_pure.mp afterPut
      exact ⟨.copy first, rfl, rfl⟩
  | moveResult =>
    exact absurd (run_lift.mp done).1 (by simp [Outcome.fail])
  | moveException =>
    obtain ⟨goal, found, done⟩ := run_operand_bind done
    obtain ⟨inside, done⟩ := run_check_bind done
    obtain ⟨id, _, making, afterMake⟩ := run_bind.mp done
    obtain ⟨rfl, rfl⟩ := run_newLocal.mp making
    obtain ⟨_, _, emitting, afterEmit⟩ := run_bind.mp afterMake
    cases run_emit.mp emitting
    cases run_put.mp afterEmit
    exact ⟨.receive goal.toNat, by simp [operation?, known, found], _,
      .receive (puts_set (by simpa using inside) _), grows_defining frame.method rfl _ frame.line,
      rfl⟩
  | returnVoid =>
    exact ⟨_, by simp [operation?, known], lowers_emit done rfl .returnVoid⟩
  | returnValue =>
    obtain ⟨reg, id, found, held, done⟩ := run_value_bind done
    exact ⟨_, by simp [operation?, known, found], lowers_emit done rfl (.returnValue held)⟩
  | constNarrow | constWide =>
    obtain ⟨reg, found, done⟩ := run_operand_bind done
    exact ⟨_, by simp [operation?, known, found], lowers_define done rfl .nil⟩
  | constString | constClass | newInstance | staticGet =>
    obtain ⟨entry, named, done⟩ := run_lift_bind done
    obtain ⟨goal, found, done⟩ := run_operand_bind done
    exact ⟨_, by simp [operation?, known, found, named, Except.toOption],
      lowers_define done rfl .nil⟩
  | monitor enter =>
    obtain ⟨reg, id, found, held, done⟩ := run_value_bind done
    refine ⟨.monitor enter reg.toNat, by simp [operation?, known, found], ?_⟩
    cases enter with
    | true => exact lowers_emit done rfl (.enter held)
    | false => exact lowers_emit done rfl (.exit held)
  | checkCast =>
    obtain ⟨reg, id, found, held, done⟩ := run_value_bind done
    obtain ⟨desc, named, done⟩ := run_lift_bind done
    obtain ⟨goal, foundGoal, done⟩ := run_operand_bind done
    cases found.symm.trans foundGoal
    exact ⟨_, by simp [operation?, known, found, named, Except.toOption],
      lowers_define done rfl (.cons (.register held) .nil)⟩
  | instanceOf | newArray | fieldGet =>
    obtain ⟨reg, id, found, held, done⟩ := run_value_bind done
    obtain ⟨entry, named, done⟩ := run_lift_bind done
    obtain ⟨goal, foundGoal, done⟩ := run_operand_bind done
    exact ⟨_, by simp [operation?, known, found, foundGoal, named, Except.toOption],
      lowers_define done rfl (.cons (.register held) .nil)⟩
  | arrayLength | unary op type | convert source target =>
    obtain ⟨reg, id, found, held, done⟩ := run_value_bind done
    obtain ⟨goal, foundGoal, done⟩ := run_operand_bind done
    exact ⟨_, by simp [operation?, known, found, foundGoal],
      lowers_define done rfl (.cons (.register held) .nil)⟩
  | filledNewArray =>
    obtain ⟨desc, named, done⟩ := run_lift_bind done
    obtain ⟨es, reads, done⟩ := run_mapM_read_bind done
    obtain ⟨op, result, lowers⟩ := lowers_bindResult done rfl reads
    exact ⟨op, by simp [operation?, known, named, Except.toOption, result], lowers⟩
  | fillArray =>
    obtain ⟨reg, id, found, held, done⟩ := run_value_bind done
    split at done
    next width elements payload =>
      exact ⟨_, by simp [operation?, known, found, payload], lowers_emit done rfl (.fill held)⟩
    · exact absurd (run_lift.mp done).1 (by simp [Outcome.crash])
  | throw =>
    obtain ⟨reg, id, found, held, done⟩ := run_value_bind done
    exact ⟨_, by simp [operation?, known, found], lowers_emit done rfl (.throw held)⟩
  | goto =>
    exact ⟨_, by simp [operation?, known], lowers_emit done rfl .goto⟩
  | switch =>
    obtain ⟨reg, id, found, held, done⟩ := run_value_bind done
    split at done
    next keys targets payload =>
      exact ⟨_, by simp [operation?, known, found, payload], lowers_emit done rfl (.switch held)⟩
    · exact absurd (run_lift.mp done).1 (by simp [Outcome.crash])
  | compare op type | arrayGet type | binary op type =>
    obtain ⟨left, right, idLeft, idRight, foundLeft, foundRight, heldLeft, heldRight, done⟩ :=
      run_read2_bind done
    obtain ⟨goal, foundGoal, done⟩ := run_operand_bind done
    exact ⟨_, by simp [operation?, known, foundLeft, foundRight, foundGoal],
      lowers_define done rfl (.cons (.register heldLeft) (.cons (.register heldRight) .nil))⟩
  | branch cond =>
    obtain ⟨left, right, idLeft, idRight, foundLeft, foundRight, heldLeft, heldRight, done⟩ :=
      run_read2_bind done
    exact ⟨_, by simp [operation?, known, foundLeft, foundRight],
      lowers_emit done rfl (.branch heldLeft heldRight)⟩
  | branchZero cond =>
    obtain ⟨reg, id, found, held, done⟩ := run_value_bind done
    exact ⟨_, by simp [operation?, known, found], lowers_emit done rfl (.branchZero held)⟩
  | arrayPut type =>
    obtain ⟨left, right, idLeft, idRight, foundLeft, foundRight, heldLeft, heldRight, done⟩ :=
      run_read2_bind done
    obtain ⟨reg, id, found, held, done⟩ := run_value_bind done
    exact ⟨_, by simp [operation?, known, foundLeft, foundRight, found], lowers_emit done rfl
        (.store rfl (.cons (.register heldLeft) (.cons (.register heldRight) .nil)) held)⟩
  | fieldPut =>
    obtain ⟨left, right, idLeft, idRight, foundLeft, foundRight, heldLeft, heldRight, done⟩ :=
      run_read2_bind done
    obtain ⟨ref, named, done⟩ := run_lift_bind done
    exact ⟨_, by simp [operation?, known, foundLeft, foundRight, named, Except.toOption],
      lowers_emit done rfl (.store rfl (.cons (.register heldRight) .nil) heldLeft)⟩
  | staticPut =>
    obtain ⟨reg, id, found, held, done⟩ := run_value_bind done
    obtain ⟨ref, named, done⟩ := run_lift_bind done
    exact ⟨_, by simp [operation?, known, found, named, Except.toOption],
      lowers_emit done rfl (.store rfl .nil held)⟩
  | invoke kind =>
    obtain ⟨op, call, lowers⟩ := lowers_invoke done
    exact ⟨op, by simp [operation?, known, call], lowers⟩
  | binaryInPlace op type =>
    obtain ⟨left, right, idLeft, idRight, foundLeft, foundRight, heldLeft, heldRight, done⟩ :=
      run_read2_bind done
    obtain ⟨goal, foundGoal, done⟩ := run_operand_bind done
    cases foundLeft.symm.trans foundGoal
    exact ⟨_, by simp [operation?, known, foundLeft, foundRight],
      lowers_define done rfl (.cons (.register heldLeft) (.cons (.register heldRight) .nil))⟩
  | literal op reversed =>
    obtain ⟨reg, id, found, held, done⟩ := run_value_bind done
    obtain ⟨goal, foundGoal, done⟩ := run_operand_bind done
    cases reversed with
    | true =>
      exact ⟨_, by simp [operation?, known, found, foundGoal],
        lowers_define done rfl (.cons (.literal _) (.cons (.register held) .nil))⟩
    | false =>
      exact ⟨_, by simp [operation?, known, found, foundGoal],
        lowers_define done rfl (.cons (.register held) (.cons (.literal _) .nil))⟩
  | unsupported =>
    exact absurd done run_failWith

end Step

end DexLift.Lower
