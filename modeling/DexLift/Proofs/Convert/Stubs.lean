import DexLift.Convert.Class
import DexLift.Proofs.Emit.Constants
import DexLift.Proofs.Jvm.Room
import DexLift.Proofs.Jvm.Writing

/-!
# Stubs

A method that cannot be converted gets a body that throws. The body is assembled
with the pool that the failed method has left, so it is there unless that pool is
spoiled: an entry did not fit, before or while the stub was assembled.
-/

namespace DexLift

namespace Jvm

namespace Asm

/-- The instruction that pushes the constant at an index. -/
def loadBytes (index : UInt16) : List UInt8 :=
  if index ≤ 255 then [Opcode.ldc.code, index.toUInt8] else Opcode.ldcW.code :: u2 index

section Straight

variable {a : Assembler} {pieces : List (List UInt8)} {depth : Int}

section

variable (straight : Straight a pieces depth)

include straight

theorem Straight.typeOp (o : Opcode) (name : Text)
    (deep : 0 ≤ depth + o.delta) :
    ∃ b, (typeOp o name).run.run a = (.ok (), b) ∧ b.pool = ((Pool.class_ name).run a.pool).2 ∧
      Straight b (pieces ++ [o.code :: u2 ((Pool.class_ name).run a.pool).1])
        (depth + o.delta) := by
  obtain ⟨b, ended, pool, next⟩ := (straight.withPool _).emit o.delta o
    (u2 ((Pool.class_ name).run a.pool).1) deep
  exact ⟨b, (run_bind_of_ok (run_intern (Pool.class_ name) a)).trans ended, pool, next⟩

theorem Straight.string (text : Text) (deep : 0 ≤ depth) :
    ∃ b, (string text).run.run a = (.ok (), b) ∧ b.pool = ((Pool.string text).run a.pool).2 ∧
      Straight b (pieces ++ [loadBytes ((Pool.string text).run a.pool).1]) (depth + 1) := by
  have load : loadConstant ((Pool.string text).run a.pool).1 =
      if ((Pool.string text).run a.pool).1 ≤ 255 then
        Asm.emit 1 .ldc [((Pool.string text).run a.pool).1.toUInt8]
      else Asm.emit 1 .ldcW (u2 ((Pool.string text).run a.pool).1) := rfl
  have start : (Asm.string text).run.run a =
      (loadConstant ((Pool.string text).run a.pool).1).run.run
        { a with pool := ((Pool.string text).run a.pool).2 } :=
    run_bind_of_ok (run_intern (Pool.string text) a)
  rw [start, load, loadBytes]
  split
  · exact (straight.withPool _).emit 1 _ _ (by omega)
  · exact (straight.withPool _).emit 1 _ _ (by omega)

theorem Straight.invokespecial (owner name : Text)
    {desc : Text} (slots : descSlots desc = .ok (1, 0)) (deep : 2 ≤ depth) :
    ∃ b, (invoke .invokespecial owner name desc false).run.run a = (.ok (), b) ∧
      b.pool = ((Pool.methodRef owner name desc).run a.pool).2 ∧
      Straight b (pieces ++ [Opcode.invokespecial.code ::
        u2 ((Pool.methodRef owner name desc).run a.pool).1]) (depth - 2) := by
  obtain ⟨b, ended, pool, next⟩ := (straight.withPool _).emit (0 - 1 - 1)
    .invokespecial (u2 ((Pool.methodRef owner name desc).run a.pool).1) (by omega)
  refine ⟨b, ?_, pool, ?_⟩
  · have lifted : (lift (.ok (1, 0))).run.run a = (.ok ((1, 0) : Nat × Nat), a) := rfl
    unfold Asm.invoke
    rw [slots, run_bind_of_ok lifted]
    refine (run_bind_of_ok (run_intern (Pool.methodRef owner name desc) a)).trans ?_
    rw [← ended]
    exact congrArg (fun operands => (Asm.emit (0 - 1 - 1) .invokespecial operands).run.run _)
      (List.append_nil _)
  · have same : depth - 2 = depth + ((0 : Int) - 1 - 1) := by omega
    rwa [same]

end

end Straight

end Asm

end Jvm

namespace Convert

open Jvm (Pool Code Asm Opcode u2)

/-! ## What a stub is -/

/-- The descriptor of the constructor that stubs call. -/
def messageDesc : Text := "(Ljava/lang/String;)V"

def ThrowsUnsupported (p : Pool) (code : Code) (message : Text) : Prop :=
  ∃ type text constructor : UInt16,
    code.bytecode = Opcode.new.code :: u2 type ++ Opcode.dup.code :: Asm.loadBytes text ++
      Opcode.invokespecial.code :: u2 constructor ++ [Opcode.athrow.code] ∧
    code.exceptions = [] ∧ p.IsClass type unsupportedName ∧ p.IsString text message ∧
    p.IsMethod constructor unsupportedName "<init>" messageDesc

theorem ThrowsUnsupported.grow {p q : Pool} (grows : p.Grows q) {code : Code} {message : Text}
    (throws : ThrowsUnsupported p code message) : ThrowsUnsupported q code message := by
  obtain ⟨type, text, constructor, bytes, plain, isClass, isString, isMethod⟩ := throws
  exact ⟨type, text, constructor, bytes, plain, isClass.grow grows, isString.grow grows,
    isMethod.grow grows⟩

theorem mapM_ofDesc (descs : List Text) :
    (∃ types, descs.mapM Jvm.VType.ofDesc = .ok types) ∨
      descs.mapM Jvm.VType.ofDesc = .error .crashed := by
  have one : ∀ desc, (∃ type, Jvm.VType.ofDesc desc = .ok type) ∨
      Jvm.VType.ofDesc desc = .error .crashed := by
    intro desc
    unfold Jvm.VType.ofDesc
    cases desc.first? with
    | none => exact .inr rfl
    | some b =>
      left
      dsimp only
      repeat' split
      all_goals exact ⟨_, rfl⟩
  induction descs with
  | nil => exact .inl ⟨[], rfl⟩
  | cons desc descs ih =>
    rw [List.mapM_cons]
    rcases one desc with ⟨type, found⟩ | crashed
    · rcases ih with ⟨types, rest⟩ | crashed
      · exact .inl ⟨type :: types, by rw [found, rest]; rfl⟩
      · exact .inr (by rw [found, crashed]; rfl)
    · exact .inr (by rw [crashed]; rfl)

/-- How assembling a stub ends: with code that throws, or with the failure of the pool, unless a
parameter has no type. -/
inductive StubEnds (p : Pool) (message : Text) : Outcome Code → Prop
  | throws {code : Code} (fine : p.failure = none) (code_throws : ThrowsUnsupported p code message) :
    StubEnds p message (.ok code)
  | spoiled {failure : Failure} (failed : p.failure = some failure) :
    StubEnds p message (.error (.failed failure))
  | crashed : StubEnds p message (.error .crashed)

theorem adds_stub (owner : Text) (m : Dex.Method) (failure : Failure) :
    Asm.Adds (stub owner m failure) := by
  refine (Asm.adds_lift _).bind fun params => ?_
  refine (Asm.adds_setInitialFrame _).bind fun _ => (Asm.adds_typeOp _ _).bind fun _ => ?_
  refine (Asm.adds_op _).bind fun _ => (Asm.adds_string _).bind fun _ => ?_
  exact (Asm.adds_invoke _ _ _ _ _).bind fun _ => (Asm.adds_op _).bind fun _ => Asm.adds_finish

/-- What a stub does once the types of its parameters are known. -/
def throwing (types : List Jvm.VType) (message : Text) : Asm Code := do
  Asm.setInitialFrame types
  Asm.typeOp .new unsupportedName
  Asm.op .dup
  Asm.string message
  Asm.invoke .invokespecial unsupportedName "<init>" messageDesc false
  Asm.op .athrow
  Asm.finish

/-- The pool with the entries a stub asks for. -/
def throwingPool (pool : Pool) (message : Text) : Pool :=
  ((Pool.methodRef unsupportedName "<init>" messageDesc).run
    ((Pool.string message).run ((Pool.class_ unsupportedName).run pool).2).2).2

theorem throwingPool_fine {pool : Pool} {message : Text} (fine : pool.failure = none)
    (room : pool.entries.size + 10 ≤ Pool.capacity) (short : Pool.isTooLong message = false) :
    (throwingPool pool message).failure = none := by
  have isShort : Pool.isTooLong unsupportedName = false := by decide
  obtain ⟨named, sizeNamed⟩ := Pool.takes_class isShort pool fine (by omega)
  obtain ⟨told, sizeTold⟩ := Pool.takes_string short _ named (by omega)
  have takes : Jvm.Intern.Takes 6 (Pool.methodRef unsupportedName "<init>" messageDesc) :=
    Pool.takes_member (by decide) (by decide) (by decide) (fun _ _ => rfl) rfl
  unfold throwingPool
  exact (takes _ told (by omega)).1

section

variable {pool : Pool} (sound : pool.Sound)

include sound

theorem throwing_assembles (types : List Jvm.VType) (message : Text) : ∃ code final,
    throwingPool pool message = final ∧
    (throwing types message).assemble pool = (Asm.unlessSpoiled final code, final) ∧
    (final.failure = none → ThrowsUnsupported final code message) := by
  have start : Asm.Straight { pool, initial := types, maxLocals := max 0 (Jvm.VType.slots types) }
      [] 0 := ⟨rfl, rfl, rfl, rfl, rfl⟩
  have framed : (Asm.setInitialFrame types).run.run { pool } = (.ok (),
    { pool, initial := types, maxLocals := max 0 (Jvm.VType.slots types) }) := rfl
  obtain ⟨a, made, poolA, straightA⟩ := start.typeOp .new unsupportedName (by decide +kernel)
  obtain ⟨b, depthB, doubled, poolB, straightB, isDepthB⟩ := straightA.op .dup (by decide +kernel)
  have two : (0 : Int) + Opcode.new.delta + Opcode.dup.delta = 2 := by decide +kernel
  have deepB : depthB = 2 := (isDepthB (by decide)).trans two
  subst deepB
  obtain ⟨c, loaded, poolC, straightC⟩ := straightB.string message (by decide)
  obtain ⟨d, called, poolD, straightD⟩ := straightC.invokespecial unsupportedName "<init>"
    (rfl : Asm.descSlots messageDesc = .ok (1, 0)) (by decide)
  obtain ⟨e, depthE, thrown, poolE, straightE, -⟩ := straightD.op .athrow (by decide +kernel)
  obtain ⟨code, bytes, plain, finished⟩ := straightE.finish (by
    simp [u2, Asm.loadBytes]
    split <;> simp)
  have assembled : (throwing types message).assemble pool =
      (Asm.unlessSpoiled e.pool code, e.pool) := by
    unfold throwing
    rw [Asm.assemble, Asm.run_bind_of_ok framed, Asm.run_bind_of_ok made,
      Asm.run_bind_of_ok doubled, Asm.run_bind_of_ok loaded, Asm.run_bind_of_ok called,
      Asm.run_bind_of_ok thrown, finished]
  have ran : throwingPool pool message = e.pool := by
    rw [throwingPool, poolE, poolD, poolC, poolB, poolA]
  refine ⟨code, e.pool, ran, assembled, fun failed => ?_⟩
  -- The pools after the class, the message and the constructor.
  have growsA : pool.Grows a.pool := poolA ▸ Pool.adds_class _ _
  have growsB : a.pool.Grows c.pool := poolC ▸ poolB ▸ Pool.adds_string _ _
  have growsD : c.pool.Grows e.pool := poolE ▸ poolD ▸ Pool.adds_methodRef _ _ _ _
  have fineC := growsD.fine failed
  have fineA := growsB.fine fineC
  have soundA := growsA.sound sound
  have isClass : a.pool.IsClass ((Pool.class_ unsupportedName).run pool).1 unsupportedName := by
    rw [poolA] at fineA ⊢
    exact Pool.isClass_class sound fineA
  have isString : c.pool.IsString ((Pool.string message).run b.pool).1 message := by
    rw [poolC] at fineC ⊢
    exact Pool.isString_string (poolB ▸ soundA) fineC
  have isMethod : e.pool.IsMethod
      ((Pool.methodRef unsupportedName "<init>" messageDesc).run c.pool).1 unsupportedName
      "<init>" messageDesc := by
    rw [poolE, poolD] at failed ⊢
    exact Pool.isMethod_methodRef (growsB.sound soundA) failed
  refine ⟨_, _, _, bytes.trans ?_, plain, isClass.grow (growsB.trans growsD),
    isString.grow growsD, isMethod⟩
  simp

variable (owner : Text) (m : Dex.Method) (failure : Failure)

omit sound in
theorem stub_eq : ∃ receiver : List Jvm.VType, stub owner m failure = (do
    let params ← Asm.lift (m.ref.proto.params.mapM Jvm.VType.ofDesc)
    throwing (receiver ++ params) (stubMessage failure)) := ⟨_, rfl⟩

theorem stub_ends :
    StubEnds ((stub owner m failure).assemble pool).2 (stubMessage failure)
      ((stub owner m failure).assemble pool).1 := by
  obtain ⟨receiver, unfolded⟩ := stub_eq owner m failure
  rw [unfolded]
  rcases mapM_ofDesc m.ref.proto.params with ⟨types, told⟩ | crashed
  · have lifted : (Asm.lift (m.ref.proto.params.mapM Jvm.VType.ofDesc)).run.run { pool } =
        (.ok types, { pool }) := by
      rw [told]
      rfl
    obtain ⟨code, final, -, assembled, throws⟩ :=
      throwing_assembles sound (receiver ++ types) (stubMessage failure)
    rw [Asm.assemble_bind_of_ok lifted, assembled, Asm.unlessSpoiled]
    cases failed : final.failure with
    | some spoil => exact .spoiled failed
    | none => exact .throws failed (throws failed)
  · have lifted : (Asm.lift (m.ref.proto.params.mapM Jvm.VType.ofDesc)).run.run { pool } =
        (.error .crashed, { pool }) := by
      rw [crashed]
      rfl
    rw [Asm.assemble_bind_of_error lifted]
    exact .crashed

variable {m failure}

/-- Without parameters and with a short message, a stub needs no more than room for ten entries. -/
theorem stub_ok (fine : pool.failure = none) (room : pool.entries.size + 10 ≤ Pool.capacity)
    (bare : m.ref.proto.params = []) (short : Pool.isTooLong (stubMessage failure) = false) :
    (∃ code, ((stub owner m failure).assemble pool).1 = .ok code) ∧
      ((stub owner m failure).assemble pool).2.failure = none := by
  obtain ⟨receiver, unfolded⟩ := stub_eq owner m failure
  have lifted : (Asm.lift (m.ref.proto.params.mapM Jvm.VType.ofDesc)).run.run { pool } =
      (.ok [], { pool }) := by
    rw [bare]
    rfl
  obtain ⟨code, final, ran, assembled, -⟩ :=
    throwing_assembles sound (receiver ++ []) (stubMessage failure)
  have spared : final.failure = none := ran ▸ throwingPool_fine fine room short
  rw [unfolded, Asm.assemble_bind_of_ok lifted, assembled, Asm.unlessSpoiled, spared]
  exact ⟨⟨code, rfl⟩, rfl⟩

end

end Convert

end DexLift
