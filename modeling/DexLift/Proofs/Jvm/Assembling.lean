import DexLift.Jvm.Code
import DexLift.Proofs.Jvm.Pool
import Mathlib.Data.List.Forall2

/-!
# Assembling only adds to the pool

Every step of assembling, also one that ends with a failure, leaves a pool that
has grown. Code is finished with a failure when the pool has one.
-/

namespace DexLift.Jvm

open List Item
open Intern (Adds)

/-! ## Frames of stack maps -/

variable {a : Assembler} {stop : Stop} {pool : Pool}

theorem VType.adds_encode (t : VType) : Adds t.encode := by
  cases t <;> first | exact .pure _ | exact (Pool.adds_class _).bind fun _ => .pure _

theorem VType.adds_encodeAll (types : List VType) : Adds (VType.encodeAll types) :=
  (Adds.mapM VType.adds_encode types).bind fun _ => .pure _

theorem Frame.adds_encode (f : Frame) (previous : List VType) (distance : Nat) :
    Adds (f.encode previous distance) := by
  have types := VType.adds_encodeAll
  refine Adds.ite ?_ <| Adds.ite ?_ <| Adds.ite ?_ <| Adds.ite ?_ ?_
  · exact .pure _
  · exact (types _).bind fun _ => .pure _
  · exact .pure _
  · exact (types _).bind fun _ => .pure _
  · exact (types _).bind fun _ => (types _).bind fun _ => .pure _

theorem adds_encodeFrames (previous : List VType) (next : Nat) (frames : List (Nat × Frame)) :
    Adds (encodeFrames previous next frames) := by
  induction frames generalizing previous next with
  | nil => exact .pure []
  | cons frame frames ih =>
    exact (frame.2.adds_encode _ _).bind fun _ => (ih _ _).bind fun _ => .pure _

theorem adds_encodeStackMap (initial : List VType) (frames : List (Nat × Frame)) :
    Adds (encodeStackMap initial frames) :=
  (adds_encodeFrames _ _ _).bind fun _ => .pure _

theorem Assembler.adds_exceptionTable (at_ : CodeLabel → Nat) (catchers : List Catcher) :
    Adds (exceptionTable at_ catchers) := by
  induction catchers with
  | nil => exact .pure []
  | cons c catchers ih =>
    have rest : ∀ entry : ExceptionEntry, Adds (do
        return entry :: (← exceptionTable at_ catchers)) :=
      fun _ => ih.bind fun _ => .pure _
    unfold exceptionTable
    refine ih.ite <| Adds.ite ?_ ?_
    · exact (Adds.pure 0).bind fun _ => rest _
    · exact (Pool.adds_class _).bind fun _ => rest _

namespace Asm

def Adds {α : Type} (step : Asm α) : Prop :=
  ∀ a : Assembler, a.pool.Grows (step.run.run a).2.pool

variable {α β : Type}

/-! ## Putting steps together -/

theorem Adds.pure (value : α) : Adds (Pure.pure value : Asm α) := fun a => .refl a.pool

variable {step : Asm α} {next : α → Asm β}

theorem Adds.bind (first : Adds step) (second : ∀ value, Adds (next value)) :
    Adds (step >>= next) := by
  intro a
  have once := first a
  have run : (step >>= next).run.run a =
      match step.run.run a with
      | (.ok value, a) => (next value).run.run a
      | (.error stop, a) => (.error stop, a) := by
    rw [ExceptT.run_bind, StateT.run_bind]
    rcases step.run.run a with ⟨_ | _, _⟩ <;> rfl
  rw [run]
  rcases ended : step.run.run a with ⟨stop | value, b⟩
  · rwa [ended] at once
  · rw [ended] at once
    exact once.trans (second value b)

theorem Adds.tryCatch {handle : Stop → Asm α} (first : Adds step)
    (second : ∀ stop, Adds (handle stop)) : Adds (MonadExcept.tryCatch step handle) := by
  intro a
  have once := first a
  have run : (MonadExcept.tryCatch step handle : Asm α).run.run a =
      match step.run.run a with
      | (.ok value, a) => (.ok value, a)
      | (.error stop, a) => (handle stop).run.run a := by
    change StateT.run (ExceptT.tryCatch step handle) a = _
    simp only [ExceptT.tryCatch, ExceptT.mk, StateT.run_bind, ExceptT.run]
    rcases StateT.run step a with ⟨_ | _, _⟩ <;> rfl
  rw [run]
  rcases ended : step.run.run a with ⟨stop | value, b⟩
  · rw [ended] at once
    exact once.trans (second stop b)
  · rwa [ended] at once

theorem adds_update {change : Assembler → Assembler}
    (same : ∀ a, (change a).pool = a.pool) : Adds (update change) := by
  intro a
  have run : ((update change).run.run a).2 = change a := rfl
  rw [run, same]
  exact .refl a.pool

theorem adds_intern {step : Intern α} (adds : Intern.Adds step) : Adds (intern step) :=
  fun a => adds a.pool

theorem adds_lift (outcome : Outcome α) : Adds (lift outcome) := fun a => .refl a.pool

theorem adds_throw (stop : Stop) : Adds (throw stop : Asm α) := fun a => .refl a.pool

theorem adds_throw_bind (stop : Stop) (next : α → Asm β) : Adds (throw stop >>= next) :=
  fun a => .refl a.pool

theorem adds_map {change : α → β} (adds : Adds step) : Adds (change <$> step) := by
  rw [map_eq_pure_bind]
  exact adds.bind fun _ => .pure _

theorem adds_get : Adds (get : Asm Assembler) := fun a => .refl a.pool

theorem Adds.ite {p : Prop} [Decidable p] {other : Asm α} (first : Adds step) (second : Adds other) :
    Adds (if p then step else other) := by
  split
  · exact first
  · exact second

/-! ## Instructions -/

theorem adds_newLabel : Adds newLabel := fun a => .refl a.pool

theorem adds_mark (l : CodeLabel) : Adds (mark l) := adds_update fun _ => rfl

theorem adds_useLocals (types : List VType) : Adds (useLocals types) := adds_update fun _ => rfl

theorem adds_grow (delta : Int) : Adds (grow delta) := adds_update fun _ => rfl

theorem adds_emptyStack : Adds emptyStack := adds_update fun _ => rfl

theorem adds_setInitialFrame (locals : List VType) : Adds (setInitialFrame locals) :=
  (adds_update (by intro; rfl)).bind fun _ => adds_useLocals _

theorem adds_frame (f : Frame) : Adds (frame f) :=
  (adds_useLocals _).bind fun _ => (adds_update (by intro; rfl)).bind fun _ => adds_grow 0

theorem adds_line (n : Int) : Adds (line n) := by
  refine adds_update fun a => ?_
  split <;> rfl

theorem adds_catch (c : Catcher) : Adds (catch_ c) := adds_update fun _ => rfl

theorem adds_append (item : Item) (delta : Int) : Adds (append item delta) :=
  (adds_update (by intro; rfl)).bind fun _ => adds_grow delta

theorem adds_emit (delta : Int) (o : Opcode) (operands : List UInt8) :
    Adds (emit delta o operands) := adds_append _ _

theorem adds_op (o : Opcode) : Adds (op o) :=
  (adds_emit _ _ _).bind fun _ => adds_emptyStack.ite (.pure ())

theorem adds_loadConstant (index : UInt16) : Adds (loadConstant index) :=
  (adds_emit _ _ _).ite (adds_emit _ _ _)

theorem adds_int (n : Int32) : Adds (int n) :=
  (adds_emit _ _ _).ite <| (adds_emit _ _ _).ite <| (adds_emit _ _ _).ite <|
    (adds_intern (Pool.adds_intern _ rfl)).bind fun _ => adds_loadConstant _

theorem adds_long (bits : UInt64) : Adds (long bits) :=
  (adds_emit _ _ _).ite <| (adds_intern (Pool.adds_intern _ rfl)).bind fun _ => adds_emit _ _ _

theorem adds_float (bits : UInt32) : Adds (float bits) :=
  (adds_emit _ _ _).ite <| (adds_emit _ _ _).ite <| (adds_emit _ _ _).ite <|
    (adds_intern (Pool.adds_intern _ rfl)).bind fun _ => adds_loadConstant _

theorem adds_double (bits : UInt64) : Adds (double bits) :=
  (adds_emit _ _ _).ite <| (adds_emit _ _ _).ite <|
    (adds_intern (Pool.adds_intern _ rfl)).bind fun _ => adds_emit _ _ _

theorem adds_string (text : Text) : Adds (string text) :=
  (adds_intern (Pool.adds_string _)).bind fun _ => adds_loadConstant _

theorem adds_classConst (name : Text) : Adds (classConst name) :=
  (adds_intern (Pool.adds_class _)).bind fun _ => adds_loadConstant _

theorem adds_typeIndex (desc : Text) : Adds (typeIndex desc) :=
  (adds_lift _).bind fun _ => .pure _

theorem adds_access (base short : Opcode) (desc : Text) (slot delta : Int) :
    Adds (access base short desc slot delta) :=
  (adds_typeIndex desc).bind fun _ => (adds_update (by intro; rfl)).bind fun _ =>
    (adds_emit _ _ _).ite <| (adds_emit _ _ _).ite (adds_emit _ _ _)

theorem adds_increment (slot n : Int) : Adds (increment slot n) :=
  (adds_update (by intro; rfl)).bind fun _ => (adds_emit _ _ _).ite (adds_emit _ _ _)

theorem adds_return (desc : Text) : Adds (return_ desc) :=
  (adds_op _).ite ((adds_typeIndex desc).bind fun _ => adds_op _)

theorem adds_elementOp (base : Opcode) (element : Text) : Adds (elementOp base element) :=
  ((adds_lift _).bind fun _ => .pure _).bind fun _ => adds_op _

theorem adds_field (o : Opcode) (owner name desc : Text) : Adds (field o owner name desc) :=
  (adds_intern (Pool.adds_fieldRef _ _ _)).bind fun _ => adds_emit _ _ _

theorem adds_invoke (o : Opcode) (owner name desc : Text) (ofInterface : Bool) :
    Adds (invoke o owner name desc ofInterface) := by
  refine (adds_lift _).bind fun _ => (adds_intern ?_).bind fun _ => adds_emit _ _ _
  split
  · exact Pool.adds_interfaceMethodRef _ _ _
  · exact Pool.adds_methodRef _ _ _

theorem adds_typeOp (o : Opcode) (name : Text) : Adds (typeOp o name) :=
  (adds_intern (Pool.adds_class _)).bind fun _ => adds_emit _ _ _

theorem adds_newArray (element : Text) : Adds (newArray element) := by
  refine (adds_lift _).bind fun _ => ?_
  split
  · exact adds_emit _ _ _
  · exact adds_typeOp _ _

theorem adds_multiArray (desc : Text) (dims : Int) : Adds (multiArray desc dims) :=
  (adds_intern (Pool.adds_class _)).bind fun _ => adds_emit _ _ _

theorem adds_jump (o : Opcode) (target : CodeLabel) : Adds (jump o target) :=
  (adds_append _ _).bind fun _ => adds_emptyStack.ite (.pure ())

section

variable (keys : List Int32) (targets : List CodeLabel) (default : CodeLabel)

theorem adds_lookupSwitch : Adds (lookupSwitch keys targets default) := by
  have last : ∀ item : Item, Adds (append item (-1) >>= fun _ => emptyStack) :=
    fun item => (adds_append _ _).bind fun _ => adds_emptyStack
  unfold lookupSwitch
  split
  · exact (adds_lift _).bind fun _ => last _
  · exact (Adds.pure ()).bind fun _ => last _

theorem adds_switch : Adds (switch keys targets default) := by
  have table : ∀ (low : Int32) (targets : List CodeLabel), Adds (tableSwitch low targets default) :=
    fun _ _ => (adds_append _ _).bind fun _ => adds_emptyStack
  cases keys with
  | nil => exact adds_lookupSwitch _ _ _
  | cons first rest =>
    simp only [switch]
    split
    · exact adds_lookupSwitch _ _ _
    · split
      · exact (adds_lift _).bind fun _ => table _ _
      · exact (Adds.pure ()).bind fun _ => table _ _

end

theorem adds_ending (code : Code) : Adds (do
    if let some failure := (← get).pool.failure then throw (.failed failure)
    return code) := by
  refine adds_get.bind fun b => ?_
  cases b.pool.failure with
  | some failure => exact adds_throw_bind _ _
  | none => exact .pure _

theorem adds_finish : Adds finish := by
  unfold finish
  refine adds_get.bind fun a => ?_
  cases a.failure with
  | some failure => exact adds_throw_bind _ _
  | none =>
    cases a.strayLabel? with
    | some label => exact adds_throw_bind _ _
    | none =>
      generalize layout a.labels a.items.size a.items.toList = laid
      obtain ⟨items, addresses⟩ := laid
      refine Adds.ite (adds_throw_bind _ _) ?_
      refine (adds_lift _).bind fun pieces => ?_
      refine (adds_intern (Assembler.adds_exceptionTable _ _)).bind fun exceptions => ?_
      refine Adds.ite ?_ ?_
      · exact (Adds.pure _).bind fun _ => adds_ending _
      · exact (adds_map (adds_intern (adds_encodeStackMap _ _))).bind fun _ => adds_ending _

/-! ## Code without jumps -/

/-- The state after straight code: instructions only, no failure, and a known depth. -/
structure Straight (a : Assembler) (pieces : List (List UInt8)) (depth : Int) : Prop where
  items : a.items = (pieces.map Item.bytes).toArray
  catchers : a.catchers = #[]
  frames : a.frames = #[]
  fine : a.failure = none
  depth_eq : a.depth = depth

theorem run_bind_of_ok {b : Assembler} {value : α} (ended : step.run.run a = (.ok value, b)) :
    (step >>= next).run.run a = (next value).run.run b := by
  rw [ExceptT.run_bind, StateT.run_bind, ended]
  rfl

theorem run_bind_of_error {b : Assembler} (ended : step.run.run a = (.error stop, b)) :
    (step >>= next).run.run a = (.error stop, b) := by
  rw [ExceptT.run_bind, StateT.run_bind, ended]
  rfl

theorem bind_ok {c : Assembler} {result : β} (ran : (step >>= next).run.run a = (.ok result, c)) :
    ∃ value b, step.run.run a = (.ok value, b) ∧ (next value).run.run b = (.ok result, c) := by
  rcases ended : step.run.run a with ⟨stop | value, b⟩
  · rw [run_bind_of_error ended] at ran
    cases ran
  · rw [run_bind_of_ok ended] at ran
    exact ⟨value, b, rfl, ran⟩

theorem assemble_bind_of_ok {value : α} (ended : step.run.run { pool } = (.ok value, { pool })) :
    (step >>= next).assemble pool = (next value).assemble pool := by
  rw [assemble, run_bind_of_ok ended]
  rfl

theorem assemble_bind_of_error (ended : step.run.run { pool } = (.error stop, { pool })) :
    (step >>= next).assemble pool = (.error stop, pool) := by
  rw [assemble, run_bind_of_error ended]

theorem run_intern (step : Intern α) (a : Assembler) :
    (intern step).run.run a = (.ok (step.run a.pool).1, { a with pool := (step.run a.pool).2 }) :=
  rfl

section Straight

variable {a : Assembler} {pieces : List (List UInt8)} {depth : Int}

section

variable (straight : Straight a pieces depth)

include straight

theorem Straight.withPool (pool : Pool) : Straight { a with pool } pieces depth :=
  ⟨straight.items, straight.catchers, straight.frames, straight.fine, straight.depth_eq⟩

theorem Straight.emit (delta : Int) (o : Opcode)
    (operands : List UInt8) (deep : 0 ≤ depth + delta) :
    ∃ b, (emit delta o operands).run.run a = (.ok (), b) ∧ b.pool = a.pool ∧
      Straight b (pieces ++ [o.code :: operands]) (depth + delta) := by
  refine ⟨_, rfl, rfl, ?_, straight.catchers, straight.frames, ?_, ?_⟩
  · simp [straight.items]
  · simp only [straight.fine, straight.depth_eq]
    rw [if_neg (by omega)]
    rfl
  · exact congrArg (· + delta) straight.depth_eq

theorem Straight.op (o : Opcode)
    (deep : 0 ≤ depth + o.delta) :
    ∃ b after, (op o).run.run a = (.ok (), b) ∧ b.pool = a.pool ∧
      Straight b (pieces ++ [[o.code]]) after ∧ (o.leaves = false → after = depth + o.delta) := by
  obtain ⟨b, ended, pool, next⟩ := straight.emit o.delta o [] deep
  by_cases leaves : o.leaves = true
  · refine ⟨{ b with depth := 0 }, 0, ?_, pool, ⟨next.items, next.catchers, next.frames, next.fine,
      rfl⟩, by simp [leaves]⟩
    rw [Asm.op, run_bind_of_ok ended, if_pos leaves]
    rfl
  · refine ⟨b, depth + o.delta, ?_, pool, next, fun _ => rfl⟩
    rw [Asm.op, run_bind_of_ok ended, if_neg leaves]
    rfl

end

theorem length_addressesFrom (pc : Nat) (items : List Item) :
    (addressesFrom pc items).length = items.length + 1 := by
  induction items generalizing pc with
  | nil => rfl
  | cons item items ih => simp [addressesFrom, ih]

theorem getLast?_addressesFrom (pc : Nat) (pieces : List (List UInt8)) :
    (addressesFrom pc (pieces.map bytes)).getLast? = some (pc + pieces.flatten.length) := by
  induction pieces generalizing pc with
  | nil => simp [addressesFrom]
  | cons piece pieces ih =>
    have more : addressesFrom (pc + piece.length) (pieces.map bytes) ≠ [] := by grind
    rw [map_cons, addressesFrom, size, getLast?_cons_of_ne_nil more, ih]
    simp [Nat.add_assoc]

theorem layout_straight (labels : Array (Option Nat)) (fuel : Nat) (pieces : List (List UInt8)) :
    layout labels fuel (pieces.map bytes) =
      (pieces.map bytes, (addressesFrom 0 (pieces.map bytes)).toArray) := by
  cases fuel with
  | zero => rfl
  | succ fuel =>
    have same : widenAll labels (addressesFrom 0 (pieces.map bytes)).toArray
        (pieces.map bytes) = pieces.map bytes := by
      have enough : (pieces.map bytes).length ≤ (addressesFrom 0 (pieces.map bytes)).length := by
        rw [length_addressesFrom]
        exact Nat.le_succ _
      refine Eq.trans (map_congr_left ?_) (map_fst_zip enough)
      rintro ⟨item, pc⟩ member
      obtain ⟨piece, -, rfl⟩ := mem_map.mp (of_mem_zip member).1
      rfl
    rw [layout, same, if_pos rfl]

theorem encode_straight (at_ : CodeLabel → Nat) (pieces : List (List UInt8))
    (addresses : List Nat) (enough : pieces.length ≤ addresses.length) :
    (((pieces.map bytes).zip addresses).mapM fun (item, pc) => item.encode pc at_) =
      (.ok pieces : Outcome (List (List UInt8))) := by
  induction pieces generalizing addresses with
  | nil => rfl
  | cons piece pieces ih =>
    cases addresses with
    | nil => simp at enough
    | cons pc addresses =>
      have rest := ih addresses (by simpa using enough)
      rw [map_cons, zip_cons_cons, mapM_cons, rest]
      rfl

def unlessSpoiled (p : Pool) (code : Code) : Outcome Code :=
  match p.failure with
  | some failure => .error (.failed failure)
  | none => .ok code

theorem Straight.finish (straight : Straight a pieces depth)
    (short : pieces.flatten.length ≤ 65535) :
    ∃ code : Code, code.bytecode = pieces.flatten ∧ code.exceptions = [] ∧
      Asm.finish.run.run a = (unlessSpoiled a.pool code, a) := by
  have listed : a.items.toList = pieces.map bytes := by rw [straight.items]
  have strayless : a.strayLabel? = none := by
    have untargeted : (pieces.map bytes).flatMap targets = [] := by
      simp [flatMap_eq_nil_iff, targets]
    unfold Assembler.strayLabel?
    rw [listed, untargeted, straight.catchers]
    rfl
  have stop : ((addressesFrom 0 (pieces.map bytes)).toArray.back?.getD 0) =
      pieces.flatten.length := by
    rw [back?_toArray, getLast?_addressesFrom]
    simp
  have encoded := encode_straight
    (addressOf a.labels (addressesFrom 0 (pieces.map bytes)).toArray) pieces
    (addressesFrom 0 (pieces.map bytes)) (by simp [length_addressesFrom])
  have unframed : Assembler.byAddress (addressesFrom 0 (pieces.map bytes)).toArray
      pieces.flatten.length a.frames.toList = [] := by
    rw [straight.frames]
    rfl
  refine ⟨{
    maxStack := UInt16.ofNat a.maxStack.toNat
    maxLocals := UInt16.ofNat a.maxLocals
    bytecode := pieces.flatten
    lines := (Assembler.byAddress (addressesFrom 0 (pieces.map bytes)).toArray
      pieces.flatten.length a.lines.toList).map fun entry =>
        { pc := UInt16.ofNat entry.1, line := UInt16.ofNat entry.2 } }, rfl, rfl, ?_⟩
  have looked : (get : Asm Assembler).run.run a = (.ok a, a) := rfl
  unfold Asm.finish
  rw [run_bind_of_ok looked]
  simp only [straight.fine, strayless, listed, layout_straight, stop, unframed,
    if_neg (Nat.not_lt.mpr short), straight.catchers]
  rw [encoded]
  have lifted : (lift (.ok pieces)).run.run a = (.ok pieces, a) := rfl
  have caught : ∀ at_, (intern (Assembler.exceptionTable at_ [])).run.run a = (.ok [], a) :=
    fun _ => rfl
  have mapless : (Pure.pure none : Asm (Option (List UInt8))).run.run a = (.ok none, a) := rfl
  rw [run_bind_of_ok lifted, run_bind_of_ok (caught _), if_pos isEmpty_nil,
    run_bind_of_ok mapless, run_bind_of_ok looked, unlessSpoiled]
  cases a.pool.failure <;> rfl

end Straight

end Asm

end DexLift.Jvm

/-!
# Laying out jumps

The rounds of the layout only make jumps long. A round that changes something makes
one more of them long, so there are rounds enough for all; what they leave has short
jumps only where the offset fits. The other items are as they were appended.
-/

namespace DexLift.Jvm

open List

namespace Item

inductive Lengthens : Item → Item → Prop where
  | same (item : Item) : Lengthens item item
  | jump (o : Opcode) (target : CodeLabel) (was is : Bool) :
      Lengthens (.jump o target was) (.jump o target is)

theorem Lengthens.trans {first second third : Item} (left : first.Lengthens second)
    (right : second.Lengthens third) : first.Lengthens third := by
  cases left with
  | same => exact right
  | jump o target was =>
    cases right with
    | same | jump => exact .jump o target was _

def Reaches (at_ : CodeLabel → Nat) (pc : Nat) : Item → Prop
  | .jump _ target false => -32768 ≤ (at_ target : Int) - pc ∧ (at_ target : Int) - pc ≤ 32767
  | _ => True

def isLongJump : Item → Bool
  | .jump _ _ isLong => isLong
  | _ => false

def widenAt (at_ : CodeLabel → Nat) (pc : Nat) : Item → Item
  | .jump o target isLong => (Item.jump o target isLong).widen ((at_ target : Int) - pc)
  | item => item

theorem lengthens_widenAt (at_ : CodeLabel → Nat) (pc : Nat) (item : Item) :
    item.Lengthens (item.widenAt at_ pc) := by
  cases item with
  | bytes | «switch» => exact .same _
  | jump o target isLong => exact .jump o target isLong _

theorem isLongJump_widenAt (at_ : CodeLabel → Nat) (pc : Nat) (item : Item) :
    (item.isLongJump = true → (item.widenAt at_ pc).isLongJump = true) ∧
      ((item.widenAt at_ pc).isLongJump = item.isLongJump → item.Reaches at_ pc) := by
  cases item with
  | bytes | «switch» => exact ⟨id, fun _ => trivial⟩
  | jump o target isLong =>
    cases isLong with
    | true => exact ⟨fun _ => rfl, fun _ => trivial⟩
    | false =>
      refine ⟨nofun, fun short => ?_⟩
      simp only [widenAt, widen, isLongJump, Bool.false_or, Bool.or_eq_false_iff,
        decide_eq_false_iff_not] at short
      constructor <;> omega

end Item

theorem longJumps_eq (items : List Item) : longJumps items = items.countP Item.isLongJump := by
  refine countP_congr fun item _ => ?_
  cases item <;> rfl

theorem widenAll_eq (labels : Array (Option Nat)) (addresses : Array Nat) (items : List Item) :
    widenAll labels addresses items = (items.zip addresses.toList).map fun pair =>
      pair.1.widenAt (addressOf labels addresses) pair.2 := by
  refine map_congr_left ?_
  rintro ⟨item, pc⟩ -
  cases item <;> rfl

theorem countP_widenAt (at_ : CodeLabel → Nat) (pairs : List (Item × Nat)) :
    (pairs.map Prod.fst).countP Item.isLongJump ≤
        (pairs.map fun pair => pair.1.widenAt at_ pair.2).countP Item.isLongJump ∧
      ((pairs.map fun pair => pair.1.widenAt at_ pair.2).countP Item.isLongJump =
        (pairs.map Prod.fst).countP Item.isLongJump →
        ∀ pair ∈ pairs, pair.1.Reaches at_ pair.2) := by
  induction pairs with
  | nil => exact ⟨Nat.le_refl _, fun _ _ member => nomatch member⟩
  | cons pair pairs ih =>
    obtain ⟨more, fixed⟩ := ih
    obtain ⟨stays, reaches⟩ := pair.1.isLongJump_widenAt at_ pair.2
    simp only [map_cons, countP_cons, forall_mem_cons]
    cases was : pair.1.isLongJump with
    | true =>
      rw [was, stays was] at reaches
      rw [stays was]
      exact ⟨Nat.add_le_add_right more 1, fun same =>
        ⟨reaches rfl, fixed (Nat.add_right_cancel same)⟩⟩
    | false =>
      rw [was] at reaches
      cases is : (pair.1.widenAt at_ pair.2).isLongJump with
      | true =>
        refine ⟨Nat.le_succ_of_le more, fun same => ?_⟩
        rw [if_pos rfl, if_neg nofun, Nat.add_zero] at same
        exact absurd same (Nat.ne_of_gt (Nat.lt_succ_of_le more))
      | false => exact ⟨more, fun same => ⟨reaches is, fixed same⟩⟩

theorem Item.forall₂_lengthens_trans {first second third : List Item}
    (left : Forall₂ Lengthens first second) (right : Forall₂ Lengthens second third) :
    Forall₂ Lengthens first third := by
  induction left generalizing third with
  | nil => exact right
  | cons here _ ih =>
    cases right with
    | cons there later => exact .cons (here.trans there) (ih later)

structure Laid (labels : Array (Option Nat)) (items laid : List Item) : Prop where
  lengthens : Forall₂ Item.Lengthens items laid
  reaches : ∀ pair ∈ laid.zip (addressesFrom 0 laid),
    pair.1.Reaches (addressOf labels (addressesFrom 0 laid).toArray) pair.2

theorem layout_spec (labels : Array (Option Nat)) (fuel : Nat) (items : List Item)
    (enough : items.length ≤ fuel + longJumps items) :
    ∃ laid, layout labels fuel items = (laid, (addressesFrom 0 laid).toArray) ∧
      Laid labels items laid := by
  induction fuel generalizing items with
  | zero =>
    refine ⟨items, rfl, List.forall₂_same.mpr fun item _ => .same item, ?_⟩
    rintro ⟨item, pc⟩ member
    rw [longJumps_eq, Nat.zero_add] at enough
    have all := countP_eq_length.mp (Nat.le_antisymm countP_le_length enough)
    have long := all item (of_mem_zip member).1
    cases item with
    | bytes | «switch» => trivial
    | jump o target isLong =>
      cases isLong with
      | true => trivial
      | false => cases long
  | succ fuel ih =>
    have fst : (items.zip (addressesFrom 0 items)).map Prod.fst = items :=
      map_fst_zip (by rw [Asm.length_addressesFrom]; exact Nat.le_succ _)
    have counted := countP_widenAt (addressOf labels (addressesFrom 0 items).toArray)
      (items.zip (addressesFrom 0 items))
    have wider : widenAll labels (addressesFrom 0 items).toArray items =
        (items.zip (addressesFrom 0 items)).map fun pair =>
          pair.1.widenAt (addressOf labels (addressesFrom 0 items).toArray) pair.2 :=
      widenAll_eq labels _ items
    rw [fst, ← wider, ← longJumps_eq, ← longJumps_eq] at counted
    by_cases same : longJumps (widenAll labels (addressesFrom 0 items).toArray items) =
        longJumps items
    · refine ⟨items, ?_, List.forall₂_same.mpr fun item _ => .same item, counted.2 same⟩
      rw [layout, if_pos same]
    · have once : List.Forall₂ Item.Lengthens items
          (widenAll labels (addressesFrom 0 items).toArray items) := by
        have each : List.Forall₂ Item.Lengthens
            ((items.zip (addressesFrom 0 items)).map Prod.fst)
            (widenAll labels (addressesFrom 0 items).toArray items) := by
          rw [wider, List.forall₂_map_right_iff, List.forall₂_map_left_iff]
          exact List.forall₂_same.mpr fun pair _ => pair.1.lengthens_widenAt _ _
        rwa [fst] at each
      have length := once.length_eq
      obtain ⟨laid, ended, spec⟩ := ih
        (widenAll labels (addressesFrom 0 items).toArray items) (by omega)
      refine ⟨laid, ?_, Item.forall₂_lengthens_trans once spec.lengthens, spec.reaches⟩
      rw [layout, if_neg same, ended]

end DexLift.Jvm
