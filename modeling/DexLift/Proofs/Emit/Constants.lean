import DexLift.Emit.Method
import DexLift.Proofs.Jvm.Assembling

/-!
# Generated code only adds constants

Code generation touches the pool through the assembler alone. So whatever a
method needs, and whether or not its code is finished, the pool it leaves has
grown from the pool it found.
-/

namespace DexLift.Ir

open Jvm (Asm Opcode)
open Jvm.Asm (Adds)

/-! ## Expressions -/

theorem adds_cannotEmit {α : Type} (cause : Cause) (detail : Text) :
    Adds (cannotEmit cause detail : Asm α) := Asm.adds_lift _

theorem Constant.adds_push (type : Ty) (c : Constant) : Adds (c.push type) := by
  cases c with
  | string text => exact Asm.adds_string text
  | «class» desc => exact Asm.adds_classConst _
  | number bits =>
    exact (Asm.adds_emit _ _ _).ite <| (Asm.adds_float _).ite <| (Asm.adds_double _).ite <|
      (Asm.adds_int _).ite <| (Asm.adds_long _).ite (Asm.adds_emit _ _ _)

theorem Op.adds_applyUnary (op : Op) (k target : Kind) : Adds (op.applyUnary k target) := by
  cases op with
  | neg | toByte | toChar | toShort => exact Asm.adds_op _
  | not =>
    refine Adds.ite ?_ ?_
    · exact (Asm.adds_long _).bind fun _ => Asm.adds_op _
    · exact (Asm.adds_int _).bind fun _ => Asm.adds_op _
  | convert => exact (Adds.pure ()).ite (Asm.adds_op _)
  | _ => exact adds_cannotEmit _ _

namespace Method

variable (m : Method)

theorem adds_slotOf (id : LocalId) : Adds (m.slotOf id) := by
  unfold slotOf
  split
  · exact .pure _
  · exact adds_cannotEmit _ _

theorem adds_loadLocal (id : LocalId) : Adds (m.loadLocal id) :=
  (m.adds_slotOf id).bind fun _ => Asm.adds_access _ _ _ _ _

theorem adds_storeLocal (id : LocalId) : Adds (m.storeLocal id) :=
  (m.adds_slotOf id).bind fun _ => Asm.adds_access _ _ _ _ _

end Method

theorem adds_accessField (opcode : Opcode) (ref : FieldRef) : Adds (accessField opcode ref) :=
  Asm.adds_field _ _ _ _

theorem adds_startElement (index : Nat) : Adds (startElement index) :=
  (Asm.adds_op _).bind fun _ => Asm.adds_int _

mutual

theorem Method.adds_push (m : Method) (h : Option Hierarchy) : (e : Expr) → Adds (m.push h e)
  | .node head args => by
    have operands := m.adds_pushAll h args
    cases head with
    | missing => exact Asm.adds_lift _
    | const type value => exact value.adds_push type
    | read id => exact m.adds_loadLocal id
    | binary op type | arrayLength => exact operands.bind fun _ => Asm.adds_op _
    | unary op type target => exact operands.bind fun _ => op.adds_applyUnary _ _
    | field ref isStatic =>
      exact (adds_accessField _ _).ite (operands.bind fun _ => adds_accessField _ _)
    | element type => exact operands.bind fun _ => Asm.adds_elementOp _ _
    | instanceOf desc | cast desc => exact operands.bind fun _ => Asm.adds_typeOp _ _
    | invoke kind method => exact operands.bind fun _ => Asm.adds_invoke _ _ _ _ _
    | new desc | caught | this | param => exact adds_cannotEmit _ _
    | construct desc method =>
      exact (Asm.adds_typeOp _ _).bind fun _ => (Asm.adds_op _).bind fun _ =>
        operands.bind fun _ => Asm.adds_invoke _ _ _ _ _
    | newArray desc => exact operands.bind fun _ => Asm.adds_newArray _
    | arrayLiteral desc =>
      exact ((Asm.adds_int _).bind fun _ => Asm.adds_newArray _).bind fun _ =>
        m.adds_pushElements h _ 0 args
    | multiArray desc => exact operands.bind fun _ => Asm.adds_multiArray _ _

theorem Method.adds_pushAll (m : Method) (h : Option Hierarchy) :
    (es : List Expr) → Adds (m.pushAll h es)
  | [] => .pure ()
  | e :: rest => (m.adds_push h e).bind fun _ => m.adds_pushAll h rest

theorem Method.adds_pushElements (m : Method) (h : Option Hierarchy) (element : Text)
    (index : Nat) : (es : List Expr) → Adds (m.pushElements h element index es)
  | [] => .pure ()
  | e :: rest =>
    (adds_startElement index).bind fun _ => (m.adds_push h e).bind fun _ =>
      (Asm.adds_elementOp _ _).bind fun _ => m.adds_pushElements h element (index + 1) rest

end

/-! ## Statements -/

theorem adds_pushContents (element : Text) (index : Nat) (values : List Int64) :
    Adds (pushContents element index values) := by
  have content : ∀ letter v, Adds (pushContent letter v) := fun letter v =>
    (Asm.adds_float _).ite <| (Asm.adds_double _).ite <| (Asm.adds_long _).ite <|
      (Asm.adds_int _).ite <| (Asm.adds_int _).ite <| (Asm.adds_int _).ite (Asm.adds_int _)
  induction values generalizing index with
  | nil => exact .pure ()
  | cons v values ih =>
    exact (adds_startElement index).bind fun _ => (Asm.adds_lift _).bind fun _ =>
      (content _ v).bind fun _ => (Asm.adds_elementOp _ _).bind fun _ =>
        ih (index + 1)

namespace Method

variable (m : Method) (h : Option Hierarchy)

theorem adds_fill (array : Expr) (data : FillData) : Adds (m.fill h array data) :=
  (m.adds_push h array).bind fun _ => (adds_pushContents _ _ _).bind fun _ => Asm.adds_op _

theorem adds_assign (target : LocalId) (e : Expr) : Adds (m.assign h target e) := by
  refine Adds.ite (.pure ()) ?_
  split
  · exact Asm.adds_increment _ _
  · exact (m.adds_push h e).bind fun _ => m.adds_storeLocal target

theorem adds_storeTo (place value : Expr) : Adds (m.storeTo h place value) := by
  unfold storeTo
  split
  · exact (m.adds_pushAll h _).bind fun _ => adds_accessField _ _
  · exact (m.adds_pushAll h _).bind fun _ => Asm.adds_elementOp _ _
  · exact Asm.adds_lift _
  · exact adds_cannotEmit _ _

theorem adds_discard (e : Expr) : Adds (m.discard e) := by
  have drop : Adds (if (m.exprType e).kind.isWide then Asm.op .pop2 else Asm.op .pop) :=
    (Asm.adds_op _).ite (Asm.adds_op _)
  unfold discard
  split
  · exact (Adds.pure ()).ite drop
  · exact drop

end Method

namespace Emit

/-- A step of code generation that only adds to the pool. -/
def Adds {α : Type} (step : Emit α) : Prop := ∀ labels, Asm.Adds (step.run labels)

variable {α β : Type}

theorem Adds.pure (value : α) : Adds (Pure.pure value : Emit α) := fun _ => Asm.Adds.pure _

theorem Adds.bind {step : Emit α} {next : α → Emit β} (first : Adds step)
    (second : ∀ value, Adds (next value)) : Adds (step >>= next) :=
  fun labels => (first labels).bind fun _ => second _ _

theorem adds_lift {step : Asm α} (adds : Asm.Adds step) : Adds (liftM step : Emit α) :=
  fun _ => adds.bind fun _ => Asm.Adds.pure _

theorem adds_get : Adds (get : Emit CodeLabels) := fun _ => Asm.Adds.pure _

theorem adds_modify (change : CodeLabels → CodeLabels) : Adds (modify change : Emit PUnit) :=
  fun _ => Asm.Adds.pure _

theorem Adds.ite {p : Prop} [Decidable p] {step other : Emit α} (first : Adds step)
    (second : Adds other) : Adds (if p then step else other) := by
  split
  · exact first
  · exact second

theorem Adds.forEach {each : α → Emit (ForInStep PUnit)} (adds : ∀ value, Adds (each value))
    (values : List α) : Adds (forIn values PUnit.unit fun value _ => each value) := by
  induction values with
  | nil => exact .pure _
  | cons value values ih =>
    rw [List.forIn_cons]
    refine (adds value).bind fun step => ?_
    cases step with
    | done => exact .pure _
    | yield => exact ih

theorem Adds.mapM {each : α → Emit β} (adds : ∀ value, Adds (each value)) (values : List α) :
    Adds (values.mapM each) := by
  induction values with
  | nil => exact .pure _
  | cons value values ih =>
    rw [List.mapM_cons]
    exact (adds value).bind fun _ => ih.bind fun _ => .pure _

theorem Adds.tryCatch {step : Emit α} {handle : Stop → Emit α} (first : Adds step)
    (second : ∀ stop, Adds (handle stop)) : Adds (MonadExcept.tryCatch step handle) := by
  intro labels
  exact Asm.Adds.tryCatch (first labels) fun stop => second stop labels

end Emit

open Emit (adds_lift)

theorem Label.adds_resolve (l : Label) : Emit.Adds l.resolve := by
  refine Emit.adds_get.bind fun labels => ?_
  cases labels[l]? with
  | some code => exact .pure code
  | none =>
    exact (adds_lift Asm.adds_newLabel).bind fun _ => (Emit.adds_modify _).bind fun _ => .pure _

namespace Method

variable (m : Method) (h : Option Hierarchy)

theorem adds_jumpIf (cond : Cond) (left : Expr) (right : Option Expr) (target : Label) :
    Emit.Adds (m.jumpIf h cond left right target) := by
  unfold jumpIf
  split
  next cond left right _ =>
    refine (Label.adds_resolve _).bind fun _ => ?_
    split
    · exact (adds_lift (m.adds_push h _)).bind fun _ => adds_lift (Asm.adds_jump _ _)
    · exact (adds_lift (m.adds_pushAll h _)).bind fun _ => adds_lift (Asm.adds_jump _ _)

theorem adds_emitAction (a : Action) : Emit.Adds (m.emitAction h a) := by
  have pushed : ∀ (e : Expr) {next : Asm Unit}, Asm.Adds next → Emit.Adds (do
      m.push h e
      next) := fun e _ adds => (adds_lift (m.adds_push h e)).bind fun _ => adds_lift adds
  cases a with
  | assign target e => exact adds_lift (m.adds_assign h target e)
  | identity target e => exact Emit.Adds.ite (adds_lift (adds_cannotEmit _ _)) (.pure ())
  | phi target args => exact adds_lift (adds_cannotEmit _ _)
  | store place value => exact adds_lift (m.adds_storeTo h place value)
  | fillArray array data => exact adds_lift (m.adds_fill h array data)
  | branch cond left right target => exact m.adds_jumpIf h cond left right target
  | goto target => exact (Label.adds_resolve _).bind fun _ => adds_lift (Asm.adds_jump _ _)
  | switch e keys targets default =>
    exact (adds_lift (m.adds_push h e)).bind fun _ =>
      (Emit.Adds.mapM Label.adds_resolve targets).bind fun _ =>
        (Label.adds_resolve default).bind fun _ => adds_lift (Asm.adds_switch _ _ _)
  | «return» value =>
    cases value with
    | none => exact adds_lift (Asm.adds_return _)
    | some e => exact pushed e (Asm.adds_return _)
  | throw e | monitorEnter e | monitorExit e => exact pushed e (Asm.adds_op _)
  | void e => exact pushed e (m.adds_discard e)
  | nop | label => exact .pure ()

end Method

/-! ## Bodies -/

namespace EmitContext

variable (c : EmitContext)

theorem adds_emitStmt (s : Stmt) : Emit.Adds (c.emitStmt s) := by
  refine Emit.Adds.tryCatch (Method.adds_emitAction _ _ _) fun stop => ?_
  cases stop with
  | failed failure | crashed | endless => exact adds_lift (Asm.adds_throw _)

theorem adds_enter (isolated : Bool) (position : Nat) (labels : List Label) :
    Emit.Adds (c.enter isolated position labels) := by
  refine Emit.Adds.bind (Emit.Adds.forEach ?_ labels) fun _ => ?_
  · intro l
    exact l.adds_resolve.bind fun _ => (adds_lift (Asm.adds_mark _)).bind fun _ => .pure _
  · exact Emit.Adds.ite (adds_lift (Asm.adds_frame _)) (.pure ())

section Piece

variable (s : Stmt) (isolates : Bool) {rest : List Piece}
  (each : ∀ isolated, Emit.Adds (c.emitPieces isolated rest))
  (behind : ∀ next more, rest = next :: more → Emit.Adds (c.emitPieces false more))

include each behind

theorem adds_emitStmt_rest : Emit.Adds
    (if (c.options.dropEmptyMonitors && beginsEmptyMonitor s.action rest) = true then
      match rest with
      | _ :: more => c.emitPieces false more
      | [] => pure ()
    else do
      c.emitStmt s
      c.emitPieces isolates rest) := by
  refine Emit.Adds.ite ?_ ((c.adds_emitStmt s).bind fun _ => each isolates)
  cases rest with
  | cons next more => exact behind next more rfl
  | nil => exact .pure ()

theorem adds_emitLine_rest : Emit.Adds (do
    if let some line := s.line then Asm.line line
    if (c.options.dropEmptyMonitors && beginsEmptyMonitor s.action rest) = true then
      match rest with
      | _ :: more => c.emitPieces false more
      | [] => pure ()
    else do
      c.emitStmt s
      c.emitPieces isolates rest) := by
  cases s.line with
  | none => exact c.adds_emitStmt_rest s isolates each behind
  | some line =>
    exact (adds_lift (Asm.adds_line _)).bind fun _ => c.adds_emitStmt_rest s isolates each behind

end Piece

theorem adds_emitPieces (isolated : Bool) (pieces : List Piece) :
    Emit.Adds (c.emitPieces isolated pieces) := by
  rcases pieces with _ | ⟨⟨position, labels⟩ | ⟨position, s⟩, rest⟩
  · unfold emitPieces
    exact .pure ()
  · unfold emitPieces
    refine (c.adds_enter _ _ _).bind fun _ => Emit.Adds.ite (adds_emitPieces false rest) ?_
    split
    · exact (adds_lift (Method.adds_storeLocal _ _)).bind fun _ => adds_emitPieces false _
    · exact (adds_lift (Asm.adds_op _)).bind fun _ => adds_emitPieces false rest
  · have each : ∀ isolated, Emit.Adds (c.emitPieces isolated rest) := fun isolated =>
      adds_emitPieces isolated rest
    have behind : ∀ next more, rest = next :: more → Emit.Adds (c.emitPieces false more) := by
      rintro next more rfl
      exact adds_emitPieces false more
    unfold emitPieces
    exact Emit.Adds.ite ((adds_lift (Asm.adds_frame _)).bind fun _ =>
      c.adds_emitLine_rest s _ each behind) (c.adds_emitLine_rest s _ each behind)
termination_by pieces.length

end EmitContext

namespace Method

variable (m : Method)

theorem adds_emitTraps : Emit.Adds m.emitTraps := by
  refine Emit.Adds.bind (Emit.Adds.forEach ?_ m.traps) fun _ => .pure ()
  intro t
  exact t.start.adds_resolve.bind fun _ => t.stop.adds_resolve.bind fun _ =>
    t.handler.adds_resolve.bind fun _ => (adds_lift (Asm.adds_catch _)).bind fun _ => .pure _

theorem adds_emit (options : EmitOptions) : Adds (m.emit options) := by
  refine (Asm.adds_lift _).bind fun _ => (Asm.adds_setInitialFrame _).bind fun _ => ?_
  refine Asm.Adds.bind ?_ fun _ => Asm.adds_finish
  exact (m.adds_emitTraps.bind fun _ => EmitContext.adds_emitPieces _ _ _) _

end Method

end DexLift.Ir
