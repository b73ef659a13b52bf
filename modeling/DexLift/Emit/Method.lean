import DexLift.Emit.Statement
import DexLift.Jvm.Code
import Std.Data.HashSet
import DexLift.Ir.Liveness

/-!
# Frames of a method with slots

The verifier must know the types of the locals wherever control arrives from
elsewhere. A local has a type there when it is live and every path has assigned
it. The receiver of a constructor has no class until the constructor of the
superclass, or another one of the same class, has been called on it.
-/

namespace DexLift.Ir

/-- The type of a local as the verifier sees it; a reference without descriptor is null. -/
def Ty.verified (t : Ty) : Jvm.VType :=
  if t.kind = .int then .integer
  else if t.kind = .float then .float
  else if t.kind = .long then .long
  else if t.kind = .double then .double
  else if t.kind = .ref then
    if t.desc.isEmpty then .null else .object (Descriptor.className t.desc)
  else .top

/-- Whether a node calls a constructor on the object in a local. -/
def Expr.constructs (id : LocalId) (e : Expr) : Bool :=
  match e.head with
  | .invoke kind method =>
    method.name == "<init>" && (kind == .direct || kind == .super) &&
      (e.args.head? >>= Expr.local?) == some id
  | _ => false

def Action.receiver? : Action → Option LocalId
  | .identity target (.node .this _) => some target
  | _ => none

/-- The receiver among statements from a position on, and the position of the first call of a
constructor on it; the position behind the last statement when there is none. -/
def findConstruction : (receiver : Option LocalId) → (position : Nat) → List Action →
    Option (LocalId × Nat)
  | receiver, position, [] => receiver.map fun id => (id, position)
  | receiver, position, action :: rest =>
    let receiver := action.receiver? <|> receiver
    match receiver with
    | some id =>
      if (action.operands.flatMap Expr.nodes).any (Expr.constructs id) then some (id, position)
      else findConstruction receiver (position + 1) rest
    | none => findConstruction none (position + 1) rest

namespace Method

/-- Whether the receiver has no class at the entry. The root class has no superclass to wait for. -/
def startsUninitialized (m : Method) : Bool := m.isConstructor && m.owner != objectDesc

def initialTypes (m : Method) : Outcome (List Jvm.VType) := do
  let receiver : List Jvm.VType :=
    if m.isStatic then []
    else if m.startsUninitialized then [.uninitializedThis]
    else [.object (Descriptor.className m.owner)]
  return receiver ++ (← m.params.mapM Jvm.VType.ofDesc)

/-- The type each handler receives: the common type of its traps, or any exception. -/
def caughtTypes (m : Method) : List (Label × Text) :=
  let enter (types : List (Label × Text)) (t : Trap) : List (Label × Text) :=
    let type := if t.type.isEmpty then throwableDesc else t.type
    match types.find? fun entry => entry.1 == t.handler with
    | none => types ++ [(t.handler, type)]
    | some (_, known) =>
      if known = type then types
      else types.map fun entry => if entry.1 = t.handler then (entry.1, throwableDesc) else entry
  m.traps.foldl enter []

def slotCount (m : Method) : Nat :=
  m.locals.foldl (fun count l =>
    match l.slot with
    | some slot => max count (slot + l.type.kind.slots)
    | none => count) 0

end Method

structure FrameSource where
  method : Method
  live : Liveness
  assigned : Array LocalSet
  slots : Nat
  /-- The receiver of a constructor and the last position at which it has no class. -/
  uninitialized : Option (LocalId × Nat)

namespace FrameSource

def ofMethod (m : Method) (f : Flow) : FrameSource where
  method := m
  live := Liveness.ofFlow f m.locals.size
  assigned := definitelyAssigned f m.locals.size
  slots := m.slotCount
  uninitialized := if m.startsUninitialized then findConstruction none 0 m.actions else none

def known (s : FrameSource) (position : Nat) : List LocalId :=
  ((s.live.before.getD position .empty).inter (s.assigned.getD position .empty)).toList
    s.method.locals.size

def typeOf (s : FrameSource) (position : Nat) (id : LocalId) : Jvm.VType :=
  match s.uninitialized with
  | some (receiver, last) =>
    if id = receiver ∧ position ≤ last then .uninitializedThis
    else (s.method.localType id).verified
  | none => (s.method.localType id).verified

/-- The frame before the statement at a position; a handler has the exception on the stack. -/
def frameAt (s : FrameSource) (position : Nat) (caught : Option Text) : Jvm.Frame :=
  let table := (s.known position).foldl (fun (table : Array Jvm.VType) id =>
    match (s.method.local_ id).slot with
    | some slot => table.setIfInBounds slot (s.typeOf position id)
    | none => table) (Array.replicate s.slots .top)
  { locals := Jvm.VType.ofSlots table.toList
    stack := caught.toList.map fun desc => .object (Descriptor.className desc) }

end FrameSource

/-!
## Code for methods

A body is a sequence of entries, where labels stand, and statements. An entry
has a frame when a branch leads to it, when it is a handler, or when control does
not come from the statement before it. A handler begins by storing the exception
or dropping it.
-/

open Jvm (Asm)

/-- How code is generated. -/
structure EmitOptions where
  /-- Without a hierarchy every owner counts as a class. -/
  hierarchy : Option Hierarchy := none
  /-- Leaves out entering a monitor that is left at once. -/
  dropEmptyMonitors : Bool := false

/-- A piece of a body, with the position of its first statement. -/
inductive Piece where
  | entry (position : Nat) (labels : List Label)
  | stmt (position : Nat) (s : Stmt)

/-- Gathers the labels that stand together, from a position on. -/
def Piece.ofStmts : (position : Nat) → List Stmt → List Piece
  | _, [] => []
  | position, s :: rest =>
    match s.action, ofStmts (position + 1) rest with
    | .label l, .entry _ labels :: more => .entry position (l :: labels) :: more
    | .label l, pieces => .entry position [l] :: pieces
    | _, pieces => .stmt position s :: pieces

/-- Whether a statement leaves the monitor that another enters. -/
def Action.isEmptyMonitor : Action → Action → Bool
  | .monitorEnter entered, .monitorExit left =>
    entered.local?.isSome && entered.local? == left.local?
  | _, _ => false

/-- Whether a statement enters a monitor that the first of the pieces after it leaves. -/
def beginsEmptyMonitor (action : Action) : List Piece → Bool
  | .stmt _ next :: _ => action.isEmptyMonitor next.action
  | _ => false

/-- What generating the code of a body refers to. -/
structure EmitContext where
  options : EmitOptions
  source : FrameSource
  /-- Labels that branches lead to. -/
  targets : Std.HashSet Label
  /-- Handlers and the types they receive. -/
  handlers : List (Label × Text)

namespace EmitContext

/-- The type an entry receives when it is a handler; the last label decides. -/
def caughtAt (c : EmitContext) (labels : List Label) : Option Text :=
  (labels.reverse.findSome? fun l => c.handlers.find? fun entry => entry.1 == l).map Prod.snd

/-- The code of one statement; a failure names the method. -/
def emitStmt (c : EmitContext) (s : Stmt) : Emit Unit := do
  let m := c.source.method
  try m.emitAction c.options.hierarchy s.action
  catch
    | .failed failure => throw (.failed (failure.under (.detail m.title)))
    | stop => throw stop

def enter (c : EmitContext) (isolated : Bool) (position : Nat) (labels : List Label) :
    Emit Unit := do
  for l in labels do
    Asm.mark (← l.resolve)
  let caught := c.caughtAt labels
  if isolated || labels.any c.targets.contains || caught.isSome then
    Asm.frame (c.source.frameAt position caught)

/-- The code of pieces; `isolated` tells that control does not come from the piece before. -/
def emitPieces (c : EmitContext) : (isolated : Bool) → List Piece → Emit Unit
  | _, [] => pure ()
  | isolated, .entry position labels :: rest => do
    c.enter isolated position labels
    if (c.caughtAt labels).isNone then c.emitPieces false rest
    else
      match rest with
      | .stmt _ ⟨.identity target (.node (.caught _ _) _), _⟩ :: more => do
        c.source.method.storeLocal target
        c.emitPieces false more
      | rest => do
        Asm.op .pop
        c.emitPieces false rest
  | isolated, .stmt position s :: rest => do
    if isolated then Asm.frame (c.source.frameAt position none)
    if let some line := s.line then Asm.line line
    let isolates : Bool := match s.action with
      | .switch .. => true
      | action => !action.fallsThrough
    if c.options.dropEmptyMonitors && beginsEmptyMonitor s.action rest then
      match rest with
      | _ :: more => c.emitPieces false more
      | [] => pure ()
    else
      c.emitStmt s
      c.emitPieces isolates rest

end EmitContext

namespace Method

/-- Enters the traps in the exception table. -/
def emitTraps (m : Method) : Emit Unit := do
  for t in m.traps do
    let start ← t.start.resolve
    let stop ← t.stop.resolve
    let handler ← t.handler.resolve
    let type := if t.type.isEmpty then t.type else Descriptor.className t.type
    Asm.catch_ { start, stop, handler, type }

/-- The code of a method whose locals have slots and that has no joins left. -/
def emit (m : Method) (options : EmitOptions) : Asm Jvm.Code := do
  let f := Flow.ofMethod m
  Asm.setInitialFrame (← Asm.lift m.initialTypes)
  let c : EmitContext := {
    options
    source := FrameSource.ofMethod m f
    targets := Std.HashSet.ofList (m.actions.flatMap Action.targets)
    handlers := m.caughtTypes }
  let pieces := Piece.ofStmts 0 (m.body.map Prod.snd)
  let generate : Emit Unit := do
    m.emitTraps
    c.emitPieces false pieces
  let _ ← generate.run ∅
  Asm.finish

end Method

end DexLift.Ir
