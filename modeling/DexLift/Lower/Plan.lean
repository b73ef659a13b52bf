import DexLift.Dex.ClassData
import DexLift.Ir.Method

/-!
# Blocks of a code item

The instructions are split into blocks at branch targets, at the bounds of
tries, at handlers, after transfers of control and after every instruction
inside a try that can throw. An instruction keeps the move of its result.

A handler that normal control reaches too gets a block of its own in front of
it that takes the exceptional edges, so that a block is entered either
normally or by an exception, never both.
-/

namespace DexLift.Lower

open Ir

/-- An edge into a block: from which block it comes, the method's entry having none, and whether an
exception takes it. -/
structure Edge where
  source : Option Nat
  exceptional : Bool
deriving DecidableEq

/-- A block of instructions `start` up to but not including `stop`, or a block without instructions
that leads on from an exception. -/
structure PlannedBlock where
  label : Label
  start : Nat
  stop : Nat
  succs : List Nat := []
  exSuccs : List Nat := []
  preds : List Edge := []
  isHandler : Bool := false
  /-- For a block without instructions: the block it leads to. -/
  leadsTo : Option Nat := none
deriving Inhabited

def PlannedBlock.isJoin (b : PlannedBlock) : Bool := b.isHandler || b.preds.length > 1

/-- The code of a method and what is looked up in it. -/
structure Source where
  instructions : Array Dex.Instruction
  tries : List Dex.Try
  lines : List (UInt32 × UInt32)

namespace Source

def ofCode (code : Dex.Code) : Source :=
  { instructions := code.instructions.toArray, tries := code.tries
    lines := (code.debug.map Dex.DebugInfo.lines).getD [] }

def at_ (s : Source) (index : Nat) : Dex.Instruction :=
  s.instructions.getD index { addr := 0, op := ⟨0⟩ }

def indexOf? (s : Source) (addr : UInt32) : Option Nat :=
  s.instructions.findIdx? fun i => i.addr == addr

/-- Whether an address lies in the range of a try. -/
def covers (t : Dex.Try) (addr : UInt32) : Bool := t.start ≤ addr && addr < t.stop

def inTry (s : Source) (addr : UInt32) : Bool := s.tries.any fun t => covers t addr

def pairsWithResult (s : Source) (index : Nat) : Bool :=
  let op := (s.at_ index).op
  (op.isInvoke || op.within 0x24 0x25) && index + 1 < s.instructions.size &&
    (s.at_ (index + 1)).op.isMoveResult

/-- The line of an address: the last entry before the first one that lies beyond it. -/
def lineAt (s : Source) (addr : UInt32) : Option Nat :=
  ((s.lines.takeWhile fun e => e.1 ≤ addr).getLast?).map fun e => e.2.toNat

/-- The indices of the addresses of instructions; others are passed over. -/
def indices (s : Source) (addrs : List UInt32) : List Nat := addrs.filterMap s.indexOf?

def switchTargets (i : Dex.Instruction) : List UInt32 :=
  match i.payload with
  | some (.branches _ targets) => targets
  | _ => []

/-- The places where blocks begin because of one instruction. -/
def leadersOf (s : Source) (index : Nat) : List Nat :=
  let i := s.at_ index
  let flow := i.op.flow
  let branched := if flow.branches then s.indices [i.target] else []
  let thrown :=
    if flow.throws && s.inTry i.addr then
      [if s.pairsWithResult index then index + 2 else index + 1]
    else []
  let ended := if flow.branches || flow.switches || !flow.continues then [index + 1] else []
  branched ++ s.indices (switchTargets i) ++ thrown ++ ended

/-- The places where blocks begin because of a try. -/
def leadersOfTry (s : Source) (t : Dex.Try) : List Nat :=
  s.indices (t.start :: t.stop :: t.handlers.map Dex.Handler.addr)

/-- The first handler address that is not the address of an instruction. -/
def strayHandler? (s : Source) : Option UInt32 :=
  ((s.tries.flatMap Dex.Try.handlers).map Dex.Handler.addr).find? fun addr =>
    (s.indexOf? addr).isNone

/-- The first instruction whose opcode is not assigned. -/
def unassigned? (s : Source) : Option Dex.Instruction :=
  s.instructions.find? fun i => i.op.flow.unassigned

/-- The indices where blocks begin, in ascending order. -/
def starts (s : Source) : List Nat :=
  let size := s.instructions.size
  let marks := 0 :: s.tries.flatMap s.leadersOfTry ++ (List.range size).flatMap s.leadersOf
  (List.range size).filter marks.contains

/-- The last instruction of a range that can throw. -/
def throwingIn? (s : Source) (start stop : Nat) : Option Nat :=
  (List.range' start (stop - start)).reverse.find? fun index => (s.at_ index).op.flow.throws

end Source

/-- The blocks of a method, and which of them begins at which instruction. -/
structure Plan where
  source : Source
  starts : List Nat
  blocks : Array PlannedBlock

namespace Plan

def block (p : Plan) (index : Nat) : PlannedBlock := p.blocks.getD index default

/-- The block that begins at the instruction of an address; the first block when none does. -/
def blockOf (source : Source) (starts : List Nat) (addr : UInt32) : Nat :=
  (starts.idxOf? ((source.indexOf? addr).getD 0)).getD 0

def labelOf (p : Plan) (addr : UInt32) : Label := (p.block (blockOf p.source p.starts addr)).label

/-- Normal successors of the block that ends with an instruction: branch target, switch targets,
then the next block. -/
def normalSuccs (source : Source) (starts : List Nat) (index : Nat) (last : Dex.Instruction) :
    List Nat :=
  let blockOf := blockOf source starts
  let branched := if last.op.flow.branches then [blockOf last.target] else []
  let next := if last.op.flow.continues && index + 1 < starts.length then [index + 1] else []
  branched ++ (Source.switchTargets last).map blockOf ++ next

def thrownSuccs (source : Source) (starts : List Nat) (start stop : Nat) : List Nat :=
  match source.throwingIn? start stop with
  | none => []
  | some index =>
    let addr := (source.at_ index).addr
    let handlers := (source.tries.filter fun t => Source.covers t addr).flatMap Dex.Try.handlers
    handlers.foldl (fun found h =>
      let b := blockOf source starts h.addr
      if found.contains b then found else found ++ [b]) []

/-- The state of a depth-first walk: which blocks were entered, and the finished ones, last first.
-/
structure Walk where
  entered : List Nat := []
  finished : List Nat := []

/-- Walks over everything that can be reached from a block and was not entered yet. -/
def walk (blocks : Array PlannedBlock) : (fuel : Nat) → (index : Nat) → Walk → Walk
  | 0, _, state => state
  | fuel + 1, index, state =>
    let b := blocks.getD index default
    let state := { state with entered := index :: state.entered }
    let state := (b.succs ++ b.exSuccs).foldl (fun state succ =>
      if state.entered.contains succ then state else walk blocks fuel succ state) state
    { state with finished := index :: state.finished }

/-- The blocks that can be reached, every block before its successors except along back edges. -/
def reversePostorder (blocks : Array PlannedBlock) : List Nat :=
  (walk blocks blocks.size 0 {}).finished

def enterPreds (blocks : Array PlannedBlock) (index : Nat) : Array PlannedBlock :=
  let b := blocks.getD index default
  let blocks := b.succs.foldl (fun blocks s =>
    blocks.modify s fun t => { t with preds := t.preds ++ [⟨some index, false⟩] }) blocks
  b.exSuccs.foldl (fun blocks s =>
    blocks.modify s fun t =>
      { t with preds := t.preds ++ [⟨some index, true⟩], isHandler := true }) blocks

/-- A block whose exceptions go to `front` in place of `handler`. -/
def redirect (handler front : Nat) (b : PlannedBlock) : PlannedBlock :=
  { b with exSuccs := b.exSuccs.map fun t => if t = handler then front else t }

def redirectAll (handler front : Nat) (edges : List Edge) (blocks : Array PlannedBlock) :
    Array PlannedBlock :=
  edges.foldl (fun blocks p =>
    match p.source with
    | some source => blocks.modify source (redirect handler front)
    | none => blocks) blocks

/-- The blocks with one in front of a handler, which exceptions come to in place of the handler. -/
def withFront (label : Label) (handler : Nat) (blocks : Array PlannedBlock) : Array PlannedBlock :=
  let h := blocks.getD handler default
  let redirected := redirectAll handler blocks.size (h.preds.filter Edge.exceptional) blocks
  (redirected.setIfInBounds handler
    { h with preds := h.preds.filter (fun p => !p.exceptional) ++ [⟨some blocks.size, false⟩]
             isHandler := false, exSuccs := (redirected.getD handler default).exSuccs }).push
    { label, start := 0, stop := 0, succs := [handler], preds := h.preds.filter Edge.exceptional
      isHandler := true, leadsTo := some handler }

def splitHandler (state : Method × Array PlannedBlock) (index : Nat) :
    Method × Array PlannedBlock :=
  let (m, blocks) := state
  let h := blocks.getD index default
  if !h.isHandler || (h.preds.filter fun p => !p.exceptional).isEmpty then (m, blocks)
  else
    let (label, m) := m.newLabel
    (m, withFront label index blocks)

/-- Plans the blocks of a method; labels for them are made in the method. -/
def make (m : Method) (code : Dex.Code) : Outcome (Method × Plan) := do
  let source := Source.ofCode code
  match source.strayHandler?, source.unassigned? with
  | some addr, _ =>
    Outcome.fail (.other ("handler address " ++ Text.hex addr.toNat 4 ++ " is not an instruction"))
  | none, some i =>
    Outcome.failWith .unsupportedOpcode
      ("opcode 0x" ++ Text.hex i.op.code.toNat 2 ++ " at " ++ Text.hex i.addr.toNat 4)
  | none, none =>
    let starts := source.starts
    let stops := starts.tail ++ [source.instructions.size]
    let (m, blocks) := ((starts.zip stops).zipIdx).foldl
      (fun (m, blocks) ((start, stop), index) =>
        let (label, m) := m.newLabel
        let last := source.at_ (stop - 1)
        let b : PlannedBlock :=
          { label, start, stop, succs := normalSuccs source starts index last
            exSuccs := thrownSuccs source starts start stop }
        (m, blocks.push b)) (m, #[])
    let runsOff (index : Nat) : Bool :=
      index + 1 == blocks.size &&
        (source.at_ ((blocks.getD index default).stop - 1)).op.flow.continues
    match (reversePostorder blocks).find? runsOff with
    | some index =>
      Outcome.failWith .fallsOff
        ("after " ++ Text.hex (source.at_ ((blocks.getD index default).stop - 1)).addr.toNat 4)
    | none =>
      let count := blocks.size
      let blocks := (List.range count).foldl enterPreds blocks
      let blocks := blocks.modify 0 fun b => { b with preds := b.preds ++ [⟨none, false⟩] }
      let (m, blocks) := (List.range count).foldl splitHandler (m, blocks)
      return (m, { source, starts, blocks })

end Plan

end DexLift.Lower
