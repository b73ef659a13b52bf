import DexLift.Proofs.Lower.Blocks

/-!
# Results and their moves

A call and the move of its result are lowered together. They come apart only at
the beginning of a block. Blocks begin behind a call with the move already
passed over, so that it takes a try that begins or ends at the move, or control
that reaches the move from elsewhere, to part them.

## Causes that an instruction cannot fail with

An outcome avoids a cause when it is not a failure with that cause; ends outside
the data have no cause. An instruction can fail to find a register, a value in
it, or an entry of a table. It fails for want of a result to move only if it is
a move itself, or is lowered together with one that does not match its result.
-/

namespace DexLift

open List

namespace Outcome

variable {other : Cause}

variable {α β : Type} {cause : Cause}

def Avoids (cause : Cause) (outcome : Outcome α) : Prop :=
  ∀ f, outcome = .error (.failed f) → f.cause ≠ cause

theorem avoids_ok (a : α) : Avoids cause (.ok a : Outcome α) := nofun

theorem avoids_crash : Avoids cause (crash : Outcome α) := nofun

theorem avoids_fail (differs : other ≠ cause) : Avoids cause (fail other : Outcome α) := by
  rintro f ⟨⟩
  exact differs

theorem avoids_failWith (differs : other ≠ cause) (detail : Text) :
    Avoids cause (failWith other detail : Outcome α) := by
  rintro f ⟨⟩
  exact differs

theorem avoids_ofOption (value : Option α) : Avoids cause (ofOption value) := by
  cases value with
  | none => exact avoids_crash
  | some a => exact avoids_ok a

theorem Avoids.bind {first : Outcome α} {next : α → Outcome β} (avoids : first.Avoids cause)
    (more : ∀ a, first = .ok a → (next a).Avoids cause) : (first >>= next).Avoids cause := by
  cases first with
  | error stop =>
    rintro f ⟨⟩
    exact avoids f rfl
  | ok a => exact more a rfl

theorem Avoids.under {outcome : Outcome α} (avoids : outcome.Avoids cause) (note : Note) :
    (outcome.under note).Avoids cause := by
  unfold Outcome.under
  split
  next f =>
    rintro _ ⟨⟩
    exact avoids f rfl
  · exact avoids

end Outcome

namespace Dex

open Outcome (avoids_ok avoids_failWith)

/-! ## Tables of a file -/

def Read.Avoids {α : Type} (cause : Cause) (read : Read α) : Prop :=
  ∀ c, Outcome.Avoids cause (read c).1

namespace Read

variable {α β : Type} {cause : Cause}

theorem avoids_orElse (fallback : α) (read : Read α) : (read.orElse fallback).Avoids cause := by
  intro c
  unfold orElse
  split
  · exact avoids_ok _
  next other =>
    intro f failed
    exact (other f (read c).2 (Prod.ext failed rfl)).elim

theorem Avoids.bind {first : Read α} {next : α → Read β} (avoids : first.Avoids cause)
    (more : ∀ a, (next a).Avoids cause) : (first >>= next).Avoids cause := by
  intro c
  have after : (first >>= next) c = ExceptT.bindCont next (first c).1 (first c).2 := rfl
  have here := avoids c
  rw [after]
  cases outcome : (first c).1 with
  | ok a => exact more a _
  | error stop =>
    rintro f ⟨⟩
    exact here f outcome

end Read

namespace File

variable {cause : Cause} (outside : Cause.indexRange ≠ cause) (f : File)

include outside

theorem avoids_string (index : UInt32) : (f.string index).Avoids cause := by
  unfold string
  split
  · exact avoids_ok _
  · exact avoids_failWith outside _

theorem avoids_type (index : UInt32) : (f.type index).Avoids cause := by
  unfold type
  split
  · exact avoids_ok _
  · exact avoids_failWith outside _

theorem avoids_proto (index : UInt32) : (f.proto index).Avoids cause := by
  unfold proto
  split
  · exact avoids_ok _
  · exact avoids_failWith outside _

omit outside in
theorem avoids_memberEntry (offset : Nat) : (f.readAt offset memberEntry).Avoids cause := by
  refine Read.Avoids.bind (Read.avoids_orElse 0 _) (fun _ => ?_) _
  refine Read.Avoids.bind (Read.avoids_orElse 0 _) fun _ => ?_
  exact Read.Avoids.bind (Read.avoids_orElse 0 _) fun _ _ => avoids_ok _

theorem avoids_field (index : UInt32) : (f.field index).Avoids cause := by
  unfold field
  split
  · exact avoids_failWith outside _
  · refine (f.avoids_memberEntry _).bind fun _ _ => ?_
    refine (f.avoids_type outside _).bind fun _ _ => ?_
    refine (f.avoids_type outside _).bind fun _ _ => ?_
    exact (f.avoids_string outside _).bind fun _ _ => avoids_ok _

theorem avoids_method (index : UInt32) : (f.method index).Avoids cause := by
  unfold method
  split
  · exact avoids_failWith outside _
  · refine (f.avoids_memberEntry _).bind fun _ _ => ?_
    refine (f.avoids_type outside _).bind fun _ _ => ?_
    refine (f.avoids_proto outside _).bind fun _ _ => ?_
    exact (f.avoids_string outside _).bind fun _ _ => avoids_ok _

end File

end Dex

namespace Lower

open Ir

variable {other : Cause} {kind : InvokeKind} {i : Dex.Instruction} {move : Option Dex.Instruction}
  {file : Dex.File} {plan : Plan} {index : Nat} {b : PlannedBlock}

namespace Step

variable {α β : Type} {cause : Cause}

def Avoids (cause : Cause) (step : Step α) : Prop := ∀ frame, (step.run frame).Avoids cause

theorem avoids_pure (a : α) : Avoids cause (pure a : Step α) := fun _ => Outcome.avoids_ok _

variable {next : α → Step β}

theorem Avoids.bind {first : Step α} {next : α → Step β} (avoids : first.Avoids cause)
    (more : ∀ a, (next a).Avoids cause) : (first >>= next).Avoids cause := by
  intro frame
  rw [StateT.run_bind]
  exact (avoids frame).bind fun pair _ => more pair.1 pair.2

variable {outcome : Outcome α}

theorem Avoids.lift {outcome : Outcome α} (avoids : outcome.Avoids cause) :
    Avoids cause (liftM outcome : Step α) :=
  fun _ => avoids.bind fun _ _ => Outcome.avoids_ok _

theorem Avoids.lift_bind (avoids : outcome.Avoids cause)
    (more : ∀ a, outcome = .ok a → (next a).Avoids cause) :
    Avoids cause (liftM outcome >>= next : Step β) := by
  intro frame
  rw [StateT.run_bind]
  refine (Avoids.lift avoids frame).bind fun pair done => ?_
  exact more pair.1 (run_lift.mp done).1 pair.2

theorem avoids_get : Avoids cause (get : Step Frame) := fun _ => Outcome.avoids_ok _

theorem avoids_emit (action : Action) : (emit action).Avoids cause := fun _ => Outcome.avoids_ok _

theorem avoids_newLocal (type : Ty) : (newLocal type).Avoids cause := fun _ => Outcome.avoids_ok _

theorem avoids_put (reg : Nat) (value : Option LocalId) : (put reg value).Avoids cause :=
  fun _ => Outcome.avoids_ok _

theorem avoids_failWith (differs : other ≠ cause) (detail : Text) :
    Avoids cause (failWith other detail : Step α) :=
  .lift (Outcome.avoids_failWith differs detail)

theorem Avoids.unless {refused : Prop} [Decidable refused] {detail : Text} {next : Unit → Step β}
    (differs : other ≠ cause) (more : (next ()).Avoids cause) :
    Avoids cause (if refused then failWith other detail >>= next else next ()) := by
  split
  · exact (avoids_failWith differs detail).bind fun _ => more
  · exact more

theorem avoids_operand (i : Dex.Instruction) (place : Nat) : (operand i place).Avoids cause :=
  .lift (Outcome.avoids_ofOption _)

section Registers

variable (outside : Cause.registerRange ≠ cause) (empty : Cause.undefinedRegister ≠ cause)

include outside

theorem avoids_check (reg : UInt16) (wide : Bool) : (check reg wide).Avoids cause := by
  refine avoids_get.bind fun frame => ?_
  by_cases far : reg.toNat + (if wide then 1 else 0) ≥ frame.registers.size
  · rw [if_pos far]
    exact .lift (Outcome.avoids_failWith outside _)
  · rw [if_neg far]
    exact avoids_pure ()

theorem avoids_write (reg : UInt16) (value : Expr) (type : Ty) :
    (write reg value type).Avoids cause := by
  have forgets : (forgetBefore reg.toNat).Avoids cause := by
    unfold forgetBefore
    split
    · refine avoids_get.bind fun frame => ?_
      split
      · split
        · exact avoids_put _ _
        · exact avoids_pure ()
      · exact avoids_pure ()
    · exact avoids_pure ()
  refine (avoids_check outside reg _).bind fun _ => (avoids_newLocal type).bind fun id =>
    (avoids_emit _).bind fun _ => (avoids_put _ _).bind fun _ => ?_
  dsimp only
  split
  · exact (avoids_put _ _).bind fun _ => forgets
  · exact forgets

theorem avoids_define (i : Dex.Instruction) (value : Expr) (type : Ty) :
    (do write (← operand i 0) value type : Step Unit).Avoids cause :=
  (avoids_operand i 0).bind fun reg => avoids_write outside reg value type

include empty

theorem avoids_read (reg : UInt16) : (read reg).Avoids cause := by
  refine (avoids_check outside reg false).bind fun _ => avoids_get.bind fun frame => ?_
  split
  · exact avoids_pure _
  · exact .lift (Outcome.avoids_failWith empty _)

theorem avoids_value (i : Dex.Instruction) (place : Nat) :
    (do read (← operand i place) : Step Expr).Avoids cause :=
  (avoids_operand i place).bind fun reg => avoids_read outside empty reg

theorem avoids_read2 (i : Dex.Instruction) (first second : Nat) :
    (read2 i first second).Avoids cause :=
  (avoids_operand i first).bind fun left => (avoids_read outside empty left).bind fun _ =>
    (avoids_operand i second).bind fun right => (avoids_read outside empty right).bind fun _ =>
      avoids_pure _

theorem avoids_mapM_read (regs : List UInt16) : (regs.mapM read).Avoids cause := by
  induction regs with
  | nil => exact avoids_pure []
  | cons reg rest ih =>
    rw [mapM_cons]
    exact (avoids_read outside empty reg).bind fun _ => ih.bind fun _ =>
      avoids_pure _

theorem avoids_arguments (regs : List UInt16) (params : List Text) :
    (arguments regs params).Avoids cause := by
  induction params generalizing regs with
  | nil => exact avoids_pure []
  | cons param rest ih =>
    exact (Avoids.lift (Outcome.avoids_ofOption _)).bind fun reg =>
      (avoids_read outside empty reg).bind fun _ => (ih _).bind fun _ =>
        avoids_pure _

end Registers

end Step

/-! ## The move of a result -/

/-- Whether the move behind an instruction takes what the instruction leaves. A call leaves nothing
if the method is void, and two registers if its result is wide; a filled array is one reference. -/
structure ResultFits (file : Dex.File) (i move : Dex.Instruction) : Prop where
  call : ∀ kind ref, meaning i.op = .invoke kind → file.method i.index = .ok ref →
    ref.proto.result ≠ "V" ∧
      (move.op.code = 0x0b ↔ (Ty.ofDesc ref.proto.result).kind.isWide = true)
  array : meaning i.op = .filledNewArray → move.op.code ≠ 0x0b

namespace Step

theorem avoids_bindResult (value : Expr) (type : Ty) (move : Option Dex.Instruction)
    (fits : ∀ m, move = some m → m.op.code = 0x0b → type.kind.isWide = true) :
    (bindResult value type move).Avoids .strayMoveResult := by
  cases move with
  | none => exact avoids_emit _
  | some m =>
    have fine : ¬ (m.op.code = 0x0b ∧ (!type.kind.isWide) = true) := by
      rintro ⟨wide, narrow⟩
      simp [fits m rfl wide] at narrow
    unfold bindResult
    dsimp only
    rw [if_neg fine]
    exact avoids_define (by decide) m value type

theorem avoids_callWith {ref : MethodRef} (receiver : List Expr)
    (fits : ∀ m, move = some m → ref.proto.result ≠ "V" ∧
      (m.op.code = 0x0b ↔ (Ty.ofDesc ref.proto.result).kind.isWide = true)) :
    (callWith ref kind i move receiver).Avoids .strayMoveResult := by
  refine (avoids_arguments (by decide) (by decide) _ _).bind fun args => ?_
  dsimp only
  split
  next void =>
    cases move with
    | none => exact avoids_emit _
    | some m => exact absurd void (fits m rfl).1
  · exact avoids_bindResult _ _ _ fun m moved => (fits m moved).2.mp

theorem avoids_invoke (means : meaning i.op = .invoke kind)
    (fits : ∀ m, move = some m → ResultFits file i m) :
    (invoke file kind i move).Avoids .strayMoveResult := by
  unfold invoke
  refine Avoids.lift_bind (file.avoids_method (by decide) _) fun ref found => ?_
  have called (receiver : List Expr) : (callWith ref kind i move receiver).Avoids .strayMoveResult :=
    avoids_callWith receiver fun m moved => (fits m moved).call kind ref means found
  refine Avoids.unless (by decide) ?_
  simp only [pure_bind]
  split
  · exact (avoids_operand i 0).bind fun reg =>
      (avoids_read (by decide) (by decide) reg).bind fun e => called [e]
  · exact called []

theorem avoids_instruction (moves : meaning i.op ≠ .moveResult)
    (fits : ∀ m, move = some m → ResultFits file i m) :
    (instruction file plan i move).Avoids .strayMoveResult := by
  have outside : Cause.registerRange ≠ .strayMoveResult := by decide
  have empty : Cause.undefinedRegister ≠ .strayMoveResult := by decide
  have index : Cause.indexRange ≠ .strayMoveResult := by decide
  have value (place : Nat) : (do read (← operand i place) : Step Expr).Avoids .strayMoveResult :=
    avoids_value outside empty i place
  have both (first second : Nat) : (read2 i first second).Avoids .strayMoveResult :=
    avoids_read2 outside empty i first second
  have define (e : Expr) (type : Ty) :
      (do write (← operand i 0) e type : Step Unit).Avoids .strayMoveResult :=
    avoids_define outside i e type
  have named : Avoids .strayMoveResult (liftM (file.type i.index) : Step Text) :=
    .lift (file.avoids_type index _)
  have member : Avoids .strayMoveResult (liftM (file.field i.index) : Step FieldRef) :=
    .lift (file.avoids_field index _)
  unfold instruction
  dsimp only
  cases known : meaning i.op with
  | nop => exact avoids_pure ()
  | move wide =>
    refine (avoids_operand i 0).bind fun goal => (avoids_operand i 1).bind fun source => ?_
    refine (avoids_check outside goal wide).bind fun _ => ?_
    refine (avoids_check outside source wide).bind fun _ => avoids_get.bind fun frame => ?_
    refine (avoids_put _ _).bind fun _ => ?_
    split
    · exact avoids_put _ _
    · exact avoids_pure ()
  | moveResult => exact absurd known moves
  | moveException =>
    refine (avoids_operand i 0).bind fun goal => (avoids_check outside goal false).bind fun _ => ?_
    exact (avoids_newLocal _).bind fun id => (avoids_emit _).bind fun _ => avoids_put _ _
  | returnVoid | goto => exact avoids_emit _
  | returnValue | monitor enter | throw | branchZero cond =>
    exact (value 0).bind fun _ => avoids_emit _
  | constNarrow | constWide => exact define _ _
  | constString => exact (Avoids.lift (file.avoids_string index _)).bind fun _ => define _ _
  | constClass | newInstance => exact named.bind fun _ => define _ _
  | checkCast => exact (value 0).bind fun _ => named.bind fun _ => define _ _
  | instanceOf | newArray => exact (value 1).bind fun _ => named.bind fun _ => define _ _
  | arrayLength | unary op type | convert source goal | literal op reversed =>
    exact (value 1).bind fun _ => define _ _
  | filledNewArray =>
    refine named.bind fun desc => (avoids_mapM_read outside empty i.regs).bind fun elements => ?_
    exact avoids_bindResult _ _ _ fun m moved wide => absurd wide ((fits m moved).array known)
  | fillArray =>
    refine (value 0).bind fun array => ?_
    split
    · exact avoids_emit _
    · exact .lift Outcome.avoids_crash
  | switch =>
    refine (value 0).bind fun selector => ?_
    split
    · exact avoids_emit _
    · exact .lift Outcome.avoids_crash
  | compare op type | arrayGet type | binary op type => exact (both 1 2).bind fun _ => define _ _
  | branch cond => exact (both 0 1).bind fun _ => avoids_emit _
  | arrayPut type => exact (both 1 2).bind fun _ => (value 0).bind fun _ => avoids_emit _
  | fieldGet => exact (value 1).bind fun _ => member.bind fun _ => define _ _
  | fieldPut => exact (both 0 1).bind fun _ => member.bind fun _ => avoids_emit _
  | staticGet => exact member.bind fun _ => define _ _
  | staticPut => exact (value 0).bind fun _ => member.bind fun _ => avoids_emit _
  | invoke kind => exact avoids_invoke known fits
  | binaryInPlace op type => exact (both 0 1).bind fun _ => define _ _
  | unsupported => exact avoids_failWith (by decide) _

end Step

/-! ## Calls and the moves of their results -/

open Ir
open Outcome (avoids_ok avoids_fail avoids_failWith avoids_crash)

namespace Source

variable (s : Source)

def isMoveAt (index : Nat) : Bool := (s.at_ index).op.isMoveResult

/-- Whether an address is that of the move of a result. -/
def AtMove (addr : UInt32) : Prop := ∃ index, s.indexOf? addr = some index ∧ s.isMoveAt index = true

/-- Every move of a result directly follows an instruction whose result it matches, and control
reaches it from nowhere else. -/
structure Paired (file : Dex.File) (s : Source) : Prop where
  follows : ∀ index < s.instructions.size, s.isMoveAt index = true → ∃ before,
    index = before + 1 ∧ s.pairsWithResult before = true ∧ ResultFits file (s.at_ before) (s.at_ index)
  branch : ∀ index < s.instructions.size, (s.at_ index).op.flow.branches = true →
    ¬ s.AtMove (s.at_ index).target
  switch : ∀ index < s.instructions.size, ∀ addr ∈ switchTargets (s.at_ index), ¬ s.AtMove addr
  handler : ∀ t ∈ s.tries, ∀ h ∈ t.handlers, ¬ s.AtMove h.addr

/-- A try begins or ends between a call and the move of its result. -/
def Divides (t : Dex.Try) : Prop := s.AtMove t.start ∨ s.AtMove t.stop

variable {s}

section

variable (pairs : s.pairsWithResult index = true)

include pairs

theorem not_isMoveAt_of_pairs : s.isMoveAt index = false := by
  have all : ∀ code : Fin 256,
      ((⟨⟨⟨code⟩⟩⟩ : Dex.Opcode).isInvoke || (⟨⟨⟨code⟩⟩⟩ : Dex.Opcode).within 0x24 0x25) = true →
        (⟨⟨⟨code⟩⟩⟩ : Dex.Opcode).isMoveResult = false := by decide +kernel
  simp only [pairsWithResult, Bool.and_eq_true] at pairs
  exact all _ pairs.1.1

theorem flow_of_pairs : (s.at_ index).op.flow = .throwing := by
  simp only [pairsWithResult, Bool.and_eq_true] at pairs
  exact flow_of_result _ pairs.1.1

theorem isMoveAt_of_pairs : s.isMoveAt (index + 1) = true := by
  simp only [pairsWithResult, Bool.and_eq_true] at pairs
  exact pairs.2

end

namespace Paired

variable {file : Dex.File} (paired : Paired file s)

include paired

theorem pairs {index : Nat} (inside : index + 1 < s.instructions.size)
    (moves : s.isMoveAt (index + 1) = true) : s.pairsWithResult index = true := by
  obtain ⟨before, same, pairs, -⟩ := paired.follows _ inside moves
  cases same
  exact pairs

theorem not_isMoveAt_succ (inside : index + 1 < s.instructions.size)
    (moves : s.isMoveAt index = true) : s.isMoveAt (index + 1) = false := by
  by_contra next
  have := not_isMoveAt_of_pairs (paired.pairs inside (by simpa using next))
  simp [moves] at this

/-- No block begins at a move because of an instruction. -/
theorem not_leader {other : Nat} (inside : index < s.instructions.size)
    (known : other < s.instructions.size) (leads : index ∈ s.leadersOf other) :
    s.isMoveAt index = false := by
  by_contra moves
  rw [Bool.not_eq_false] at moves
  have named : ∀ {addrs}, index ∈ s.indices addrs → ∃ addr ∈ addrs, s.AtMove addr := by
    intro addrs member
    obtain ⟨addr, listed, found⟩ := mem_filterMap.mp member
    exact ⟨addr, listed, index, found, moves⟩
  have behind : index = other + 1 → s.pairsWithResult other = true := by
    rintro rfl
    exact paired.pairs inside moves
  simp only [leadersOf, mem_append] at leads
  obtain ((branched | switched) | thrown) | ended := leads
  · split at branched
    next branches =>
      obtain ⟨addr, listed, here⟩ := named branched
      cases mem_singleton.mp listed
      exact paired.branch other known branches here
    · cases branched
  · obtain ⟨addr, listed, here⟩ := named switched
    exact paired.switch other known addr listed here
  · split at thrown
    · split at thrown
      next pairs =>
        cases mem_singleton.mp thrown
        have next := paired.not_isMoveAt_succ inside (isMoveAt_of_pairs pairs)
        rw [moves] at next
        cases next
      next apart =>
        exact apart (behind (mem_singleton.mp thrown))
    · cases thrown
  · split at ended
    next transfers =>
      rw [flow_of_pairs (behind (mem_singleton.mp ended))] at transfers
      cases transfers
    · cases ended

theorem not_start (whole : ∀ t ∈ s.tries, ¬ s.Divides t) (start : index ∈ s.starts) :
    s.isMoveAt index = false := by
  obtain ⟨inside, rfl | tried | leads⟩ := s.mem_starts.mp start
  · by_contra moves
    obtain ⟨before, same, -⟩ := paired.follows 0 inside (by simpa using moves)
    cases same
  · obtain ⟨t, member, leads⟩ := mem_flatMap.mp tried
    obtain ⟨addr, listed, found⟩ := mem_filterMap.mp leads
    by_contra moves
    have here : s.AtMove addr := ⟨index, found, by simpa using moves⟩
    rcases mem_cons.mp listed with rfl | listed
    · exact whole t member (.inl here)
    rcases mem_cons.mp listed with rfl | listed
    · exact whole t member (.inr here)
    · obtain ⟨h, member', rfl⟩ := mem_map.mp listed
      exact paired.handler t member h member' here
  · obtain ⟨other, known, leads⟩ := leads
    exact paired.not_leader inside known leads

end Paired

end Source

/-! ## Following the instructions -/

theorem not_isMoveAt_nextIn (paired : plan.source.Paired file)
    (inside : nextIn plan b index < b.stop) (bound : b.stop ≤ plan.source.instructions.size) :
    plan.source.isMoveAt (nextIn plan b index) = false := by
  have known := lt_of_lt_of_le inside bound
  by_cases taken : plan.source.pairsWithResult index = true ∧ index + 1 < b.stop
  · have next : nextIn plan b index = index + 2 := by simp [nextIn, moveIn, taken]
    rw [next] at known ⊢
    exact paired.not_isMoveAt_succ known (Source.isMoveAt_of_pairs taken.1)
  · have next : nextIn plan b index = index + 1 := by simp [nextIn, moveIn, taken]
    rw [next] at inside known ⊢
    by_contra moves
    exact taken ⟨paired.pairs known (by simpa using moves), inside⟩

theorem isMoveResult_of_meaning {op : Dex.Opcode} (means : meaning op = .moveResult) :
    op.isMoveResult = true := by
  have all : ∀ code : Fin 256, meaning ⟨⟨⟨code⟩⟩⟩ = .moveResult →
      (⟨⟨⟨code⟩⟩⟩ : Dex.Opcode).isMoveResult = true := by decide +kernel
  exact all op.code.toFin means

theorem avoids_followInstructions {throwing : Option Nat} (paired : plan.source.Paired file)
    (bound : b.stop ≤ plan.source.instructions.size) (left index : Nat) (kept : Registers)
    (frame : Frame) (here : index < b.stop → plan.source.isMoveAt index = false) :
    (followInstructions file plan b throwing left index kept frame).Avoids .strayMoveResult := by
  induction left generalizing index kept frame with
  | zero => exact avoids_ok _
  | succ left ih =>
    unfold followInstructions
    dsimp only
    split
    · exact avoids_ok _
    next inside =>
      have apart := here (Nat.lt_of_not_le inside)
      split
      · exact (avoids_failWith (by decide) _).bind fun _ fails => by cases fails
      · have lowered : (Step.instruction file plan (plan.source.at_ index)
            (moveIn plan b index)).Avoids .strayMoveResult := by
          refine Step.avoids_instruction (fun means => ?_) fun m moved => ?_
          · have := isMoveResult_of_meaning means
            rw [Source.isMoveAt, this] at apart
            cases apart
          · unfold moveIn at moved
            split at moved
            next pairs =>
              cases moved
              obtain ⟨before, same, -, fits⟩ := paired.follows (index + 1)
                (Nat.lt_of_lt_of_le pairs.2 bound) (Source.isMoveAt_of_pairs pairs.1)
              cases same
              exact fits
            · cases moved
        refine ((lowered _).under _).bind fun pair _ => ?_
        exact ih _ _ _ fun less => not_isMoveAt_nextIn paired less bound

def Plan.Whole (plan : Plan) : Prop :=
  ∀ k, (plan.block k).leadsTo = none → (plan.block k).stop ≤ plan.source.instructions.size ∧
    ((plan.block k).start < (plan.block k).stop →
      plan.source.isMoveAt (plan.block k).start = false)

theorem avoids_followAll (paired : plan.source.Paired file) (whole : plan.Whole) (entry : Entry)
    (count : Nat) (order : List Nat) (m : Ir.Method) (done : Progress) :
    (followAll file plan entry count order m done).Avoids .strayMoveResult := by
  induction order generalizing m done with
  | nil => exact avoids_ok _
  | cons k rest ih =>
    have block : ∀ m registers phis, (followBlock file plan (plan.block k) m registers phis).Avoids
        .strayMoveResult := by
      intro m registers phis
      unfold followBlock
      cases leads : (plan.block k).leadsTo with
      | some next => exact avoids_ok _
      | none =>
        obtain ⟨bound, here⟩ := whole k leads
        exact (avoids_followInstructions paired bound _ _ _ _ here).bind fun _ _ => avoids_ok _
    unfold followAll
    exact (block _ _ _).bind fun _ _ => ih _ _

theorem Plan.Made.whole {base m : Ir.Method} {code : Dex.Code} (made : Plan.Made base code m plan)
    (paired : plan.source.Paired file)
    (undivided : ∀ t ∈ plan.source.tries, ¬ plan.source.Divides t) : plan.Whole := by
  intro k leads
  by_cases inside : k < plan.source.starts.length
  · have start : (plan.block k).start = plan.source.startOf k := made.sound.start k inside
    have stop : (plan.block k).stop = plan.source.stopOf k := made.sound.stop k inside
    rw [start, stop]
    exact ⟨Source.stopOf_le, fun _ => paired.not_start undivided (Source.startOf_mem inside)⟩
  · by_cases made' : k < plan.blocks.size
    · obtain ⟨h, -, front, -⟩ := made.sound.front k made' (Nat.le_of_not_lt inside)
      rw [Plan.block, front] at leads
      cases leads
    · have missing : plan.block k = default := by simp [Plan.block, made']
      rw [missing]
      exact ⟨Nat.zero_le _, nofun⟩

theorem avoids_prologue (ref : MethodRef) (code : Dex.Code) (m : Ir.Method) :
    (prologue ref code m).Avoids .strayMoveResult := by
  have named : ∀ params reg m registers,
      (nameParams params reg m registers).Avoids .strayMoveResult := by
    intro params
    induction params with
    | nil => exact fun _ _ _ => avoids_ok _
    | cons param rest ih =>
      intro reg m registers
      unfold nameParams
      dsimp only
      split
      · exact avoids_crash.bind nofun
      · exact ih _ _ _
  unfold prologue
  dsimp only
  split
  all_goals
    split
    · exact (avoids_failWith (by decide) _).bind nofun
    · exact named _ _ _ _

theorem avoids_fillPhis (plan : Plan) (entry : Entry) (done : Progress) (m : Ir.Method) :
    (fillPhis plan entry done m).Avoids .strayMoveResult := by
  unfold fillPhis
  dsimp only
  split
  · exact (avoids_fail (by decide)).bind nofun
  · exact avoids_ok _

theorem Plan.avoids_make (m : Ir.Method) (code : Dex.Code) :
    (Plan.make m code).Avoids .strayMoveResult := by
  unfold Plan.make
  dsimp only
  split
  · exact avoids_fail (by simp)
  · exact avoids_failWith (by decide) _
  · split
    · exact avoids_failWith (by decide) _
    · exact avoids_ok _

/-- Calls stay with the moves of their results: when every move directly follows an instruction
whose result it matches and control reaches it from nowhere else, lowering fails for a move without
a result only if some try begins or ends between a call and the move of its result. -/
theorem divides_of_strayMoveResult {file : Dex.File} {method : Dex.Method} {code : Dex.Code}
    (hasCode : method.code = some code) (paired : (Source.ofCode code).Paired file) {f : Failure}
    (failed : method.lower file = .error (.failed f)) (stray : f.cause = .strayMoveResult) :
    ∃ t ∈ code.tries, (Source.ofCode code).Divides t := by
  by_contra none
  have undivided : ∀ t ∈ code.tries, ¬ (Source.ofCode code).Divides t :=
    fun t member divides => none ⟨t, member, divides⟩
  suffices avoids : (method.lower file).Avoids .strayMoveResult from avoids f failed stray
  unfold Dex.Method.lower
  rw [hasCode]
  dsimp only
  split
  · exact avoids_failWith (by decide) _
  next nonempty =>
    refine ((Plan.avoids_make _ code).bind fun pair make => ?_).under _
    have made := Plan.made_of_make rfl (by simpa using nonempty) make
    have paired' : pair.2.source.Paired file := by
      rwa [made.source]
    have whole : pair.2.Whole := by
      refine made.whole paired' ?_
      rwa [made.source]
    refine (avoids_prologue _ _ _).bind fun opened _ => ?_
    refine (avoids_followAll paired' whole _ _ _ _ _).bind fun followed _ => ?_
    exact (avoids_fillPhis _ _ _ _).bind fun _ _ => avoids_ok _

def callFile : Dex.File :=
  { header :=
      { version := ∅, checksum := 0, fileSize := 0, headerSize := 0, strings := default
        types := default, protos := default, fields := default, methods := { size := 1, offset := 0 }
        classes := default, data := default }
    options := {}, diagnostics := [], data := ⟨#[0, 0, 0, 0, 0, 0, 0, 0]⟩
    strings := #[⟨[102]⟩], types := #[⟨[76, 65, 59]⟩]
    protos := #[{ params := [], result := ⟨[73]⟩ }] }

/-- A call, the move of its result, and a try that ends in between. -/
def parted : Dex.Code :=
  { registers := 1, ins := 0, outs := 0, debug := none
    instructions := [
      { addr := 0, op := ⟨0x71⟩ },
      { addr := 3, op := ⟨0x0a⟩, regs := [0] },
      { addr := 4, op := ⟨0x0f⟩, regs := [0] },
      { addr := 5, op := ⟨0x0d⟩, regs := [0] },
      { addr := 6, op := ⟨0x27⟩, regs := [0] }]
    tries := [{ start := 0, stop := 3, handlers := [{ type := ∅, addr := 5 }] }] }

/-- A static method that returns what it is given. -/
def partedMethod : Dex.Method :=
  { ref := { owner := ∅, name := ∅, proto := { params := [], result := ⟨[73]⟩ } }
    access := ⟨8⟩, annotations := [], params := [], code := some parted }

theorem paired_parted : (Source.ofCode parted).Paired callFile := by
  have moves : ∀ index < 5, (Source.ofCode parted).isMoveAt index = true → index = 1 := by decide
  have plain : ∀ index < 5, meaning ((Source.ofCode parted).at_ index).op ≠ .unsupported ∧
      (meaning ((Source.ofCode parted).at_ index).op).flow.branches = false := by decide
  have names : callFile.method 0 =
      .ok { owner := ⟨[76, 65, 59]⟩, name := ⟨[102]⟩, proto := { params := [], result := ⟨[73]⟩ } } :=
    rfl
  refine ⟨?_, ?_, ?_, ?_⟩
  · intro index inside here
    cases moves index inside here
    refine ⟨0, rfl, by decide, ?_, nofun⟩
    intro kind ref _ named
    cases names.symm.trans named
    exact ⟨by decide, by decide⟩
  · intro index inside branches
    obtain ⟨supported, stays⟩ := plain index inside
    rw [flow_of_meaning _ supported, stays] at branches
    cases branches
  · have none : ∀ index < 5, Source.switchTargets ((Source.ofCode parted).at_ index) = [] := by
      decide
    intro index inside addr member
    rw [none index inside] at member
    cases member
  · intro t member h listed
    cases mem_singleton.mp member
    cases mem_singleton.mp listed
    rintro ⟨index, found, here⟩
    cases (show (Source.ofCode parted).indexOf? 5 = some 3 by decide +kernel).symm.trans found
    cases moves 3 (by decide) here

def causeOf {α : Type} : Outcome α → Option Cause
  | .error (.failed f) => some f.cause
  | _ => none

theorem exists_failure_of_causeOf {α : Type} {outcome : Outcome α} {cause : Cause}
    (here : causeOf outcome = some cause) : ∃ f, outcome = .error (.failed f) ∧ f.cause = cause := by
  unfold causeOf at here
  split at here
  next f => exact ⟨f, rfl, Option.some.inj here⟩
  next => cases here

theorem divides_of_strayMoveResult_call : (Source.ofCode parted).Paired callFile ∧
    ∃ f, partedMethod.lower callFile = .error (.failed f) ∧ f.cause = .strayMoveResult ∧
      ∃ t ∈ parted.tries, (Source.ofCode parted).Divides t := by
  have fails : causeOf (partedMethod.lower callFile) = some .strayMoveResult := by decide +kernel
  obtain ⟨f, failed, stray⟩ := exists_failure_of_causeOf fails
  exact ⟨paired_parted, f, failed, stray, divides_of_strayMoveResult rfl paired_parted failed stray⟩

end Lower

end DexLift
