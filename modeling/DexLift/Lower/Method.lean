import DexLift.Lower.Instruction
import DexLift.Dex.Tree
import DexLift.Ir.Liveness

/-!
# Methods in single-assignment form

The blocks of a method are followed in an order in which a block comes after its
predecessors, back edges apart. A block with several ways in, or one that is
entered by an exception, begins with a join for every register; what a join
reads is known when all blocks are done. Joins that read nothing on some way in
are dropped, and joins of one value are replaced by it.
-/

namespace DexLift

namespace Lower

open Ir

/-- What following a block came to. -/
structure Followed where
  /-- What the registers hold at the end. -/
  out : Registers
  /-- What they hold before the instruction that may leave by an exception. -/
  beforeThrow : Registers := #[]
  /-- The joins at the entry, one for each register. -/
  phis : List StmtId := []
  body : List StmtId

/-- The blocks that were followed, by position; those not reached have nothing. -/
abbrev Progress := Array (Option Followed)

/-- The entry of a method: its label and what the registers hold there. -/
structure Entry where
  label : Label
  out : Registers

def registersAlong (entry : Entry) (done : Progress) (edge : Edge) : Registers :=
  match edge.source with
  | none => entry.out
  | some source =>
    match (done[source]?).join with
    | some followed => if edge.exceptional then followed.beforeThrow else followed.out
    | none => #[]

/-- The move of the result of an instruction, when it belongs to the same block. -/
def moveIn (plan : Plan) (b : PlannedBlock) (index : Nat) : Option Dex.Instruction :=
  if plan.source.pairsWithResult index ∧ index + 1 < b.stop then
    some (plan.source.at_ (index + 1))
  else none

/-- Follows the instructions `index` up to `stop`. The registers before the instruction `throwing`
are kept. -/
def followInstructions (file : Dex.File) (plan : Plan) (b : PlannedBlock) (throwing : Option Nat) :
    (left index : Nat) → Registers → Frame → Outcome (Registers × Frame)
  | 0, _, kept, frame => .ok (kept, frame)
  | left + 1, index, kept, frame => do
    if index ≥ b.stop then return (kept, frame)
    let i := plan.source.at_ index
    let frame := { frame with line := plan.source.lineAt i.addr }
    let kept := if throwing = some index then frame.registers else kept
    let place := Text.hex i.addr.toNat 4
    if meaning i.op = .moveException ∧ (index ≠ b.start ∨ !b.isHandler) then
      Outcome.failWith .misplacedException ("at " ++ place)
    let move := moveIn plan b index
    let ((), frame) ← Outcome.under (.detail (i.op.name ++ " at " ++ place))
      ((Step.instruction file plan i move).run frame)
    followInstructions file plan b throwing left (if move.isSome then index + 2 else index + 1)
      kept frame

def followBlock (file : Dex.File) (plan : Plan) (b : PlannedBlock) (m : Ir.Method)
    (registers : Registers) (phis : List StmtId) : Outcome (Ir.Method × Followed) :=
  match b.leadsTo with
  | some next =>
    let (id, m) := m.newStmt { action := .goto (plan.block next).label }
    .ok (m, { out := registers, phis, body := [id] })
  | none => do
    let throwing := if b.exSuccs.isEmpty then none else plan.source.throwingIn? b.start b.stop
    let (beforeThrow, frame) ← followInstructions file plan b throwing (b.stop - b.start) b.start
      #[] { method := m, registers }
    return (frame.method,
      { out := frame.registers, beforeThrow, phis, body := frame.stmts.reverse })

/-- Makes joins with new locals for `left` more registers; `phis` are those made before, the last
one first. -/
def addPhis : (left : Nat) → Ir.Method → Registers → (phis : List StmtId) →
    Ir.Method × Registers × List StmtId
  | 0, m, registers, phis => (m, registers, phis.reverse)
  | left + 1, m, registers, phis =>
    let (id, m) := m.newLocal .top
    let (phi, m) := m.newStmt { action := .phi id [] }
    addPhis left m (registers.push (some id)) (phi :: phis)

/-- Makes a join with a new local for each register. -/
def newPhis (count : Nat) (m : Ir.Method) : Ir.Method × Registers × List StmtId :=
  addPhis count m #[] []

def followAll (file : Dex.File) (plan : Plan) (entry : Entry) (count : Nat) :
    List Nat → Ir.Method → Progress → Outcome (Ir.Method × Progress)
  | [], m, done => .ok (m, done)
  | index :: rest, m, done => do
    let b := plan.block index
    let (m, registers, phis) :=
      if b.isJoin then newPhis count m
      else (m, (b.preds.head?.map (registersAlong entry done)).getD #[], [])
    let (m, followed) ← followBlock file plan b m registers phis
    followAll file plan entry count rest m (done.setIfInBounds index (some followed))

def nameParams : List (Text × Nat) → (reg : Nat) → Ir.Method → Registers →
    Outcome (Ir.Method × Registers)
  | [], _, m, registers => .ok (m, registers)
  | (desc, index) :: rest, reg, m, registers => do
    let (id, m) := m.newLocal (.ofDesc desc)
    let m := m.add { action := .identity id (.leaf (.param index)) }
    if reg ≥ registers.size then Outcome.crash
    nameParams rest (reg + Descriptor.slots desc) m (registers.setIfInBounds reg (some id))

/-- Names the receiver and the parameters, which come in the last registers. -/
def prologue (ref : MethodRef) (code : Dex.Code) (m : Ir.Method) :
    Outcome (Ir.Method × Registers) := do
  let count := code.registers.toNat
  let want := ref.proto.paramSlots + (if m.isStatic then 0 else 1)
  if code.ins.toNat ≠ want ∨ want > count then
    Outcome.failWith .registerRange
      ("ins " ++ Text.ofNat code.ins.toNat ++ ", prototype needs " ++ Text.ofNat want ++ " of " ++
        Text.ofNat count ++ " registers")
  let registers : Registers := Array.replicate count none
  let first := count - want
  let params := ref.proto.params.zipIdx
  if m.isStatic then nameParams params first m registers
  else
    let (id, m) := m.newLocal (.refTo ref.owner)
    let m := m.add { action := .identity id (.leaf .this) }
    nameParams params (first + 1) m (registers.setIfInBounds first (some id))

/-- Labels to place around a block because a trap begins or ends there. -/
structure TrapLabels where
  starts : List (Nat × Label) := []
  stops : List (Nat × Label) := []

/-- The label of the handler at an address and whether it is reached. A block in front of the
handler takes its place. -/
def handlerEntry (plan : Plan) (done : Progress) (addr : UInt32) : Label × Bool :=
  let handler := Plan.blockOf plan.source plan.starts addr
  let index := (plan.blocks.findIdx? fun b => b.leadsTo == some handler).getD handler
  ((plan.block index).label, ((done[index]?).join).isSome)

def beginsIn (plan : Plan) (done : Progress) (t : Dex.Try) (index : Nat) : Bool :=
  let b := plan.block index
  b.leadsTo.isNone && ((done[index]?).join).isSome &&
    Source.covers t (plan.source.at_ b.start).addr

/-- Makes the traps of a try. A try without reached blocks has none. -/
def addTraps (plan : Plan) (done : Progress) (state : Ir.Method × TrapLabels) (t : Dex.Try) :
    Ir.Method × TrapLabels :=
  let inside := (List.range plan.blocks.size).filter (beginsIn plan done t)
  match inside.head?, inside.getLast? with
  | some first, some last =>
    let (m, labels) := state
    let (start, m) := m.newLabel
    let (stop, m) := m.newLabel
    let traps := t.handlers.filterMap fun h =>
      let (handler, reached) := handlerEntry plan done h.addr
      if reached then some { start, stop, handler, type := h.type } else none
    ({ m with traps := m.traps ++ traps },
     { starts := labels.starts ++ [(first, start)], stops := labels.stops ++ [(last, stop)] })
  | _, _ => state

def linkBlock (plan : Plan) (done : Progress) (labels : TrapLabels) (m : Ir.Method) (index : Nat) :
    Ir.Method :=
  match (done[index]?).join with
  | none => m
  | some followed =>
    let place (m : Ir.Method) (l : Label) : Ir.Method := m.add { action := .label l }
    let of (entries : List (Nat × Label)) : List Label :=
      (entries.filter fun e => e.1 == index).map Prod.snd
    let m := (of labels.starts ++ [(plan.block index).label]).foldl place m
    let m := (followed.phis ++ followed.body).foldl Ir.Method.append m
    (of labels.stops).foldl place m

/-- Links the reached blocks in the order of their addresses, then the blocks in front of handlers,
and turns the tries into traps. -/
def linkAll (plan : Plan) (done : Progress) (m : Ir.Method) : Ir.Method :=
  let (m, labels) := plan.source.tries.foldl (addTraps plan done) (m, {})
  let (inFront, others) := (List.range plan.blocks.size).partition fun index =>
    (plan.block index).leadsTo.isSome
  (others ++ inFront).foldl (linkBlock plan done labels) m

/-- The operands of the join of a register: one for each way in from a reached block, up to the
first that holds nothing. Also whether there was such a way. -/
def phiOperands (plan : Plan) (entry : Entry) (done : Progress) (reg : Nat) :
    List Edge → List PhiArg × Bool
  | [] => ([], false)
  | edge :: rest =>
    let source := edge.source.map fun s => (plan.block s).label
    let reached := edge.source.all fun s => ((done[s]?).join).isSome
    if !reached then phiOperands plan entry done reg rest
    else
      match (registersAlong entry done edge).getD reg none with
      | none => ([], true)
      | some value =>
        let (args, isOpen) := phiOperands plan entry done reg rest
        ({ pred := source.getD entry.label, value, exceptional := edge.exceptional } :: args,
          isOpen)

/-- A join while it is decided which joins stay. -/
structure PendingPhi where
  stmt : StmtId
  target : LocalId
  args : List PhiArg

/-- Splits off the joins that read a dropped local, until no more follow. -/
def dropOpen : (fuel : Nat) → (dropped : LocalSet) → List PendingPhi → LocalSet × List PendingPhi
  | 0, dropped, phis => (dropped, phis)
  | fuel + 1, dropped, phis =>
    let (bad, kept) := phis.partition fun p => p.args.any fun a => dropped.mem a.value
    if bad.isEmpty then (dropped, kept)
    else dropOpen fuel (dropped.union (.ofList (bad.map PendingPhi.target))) kept

/-- The one local other than itself that a join reads, if there is exactly one. -/
def soleOperand (subst : Substitution) (p : PendingPhi) : Option LocalId :=
  let read := (p.args.map fun a => subst.resolve a.value).filter (· != p.target)
  match read with
  | [] => none
  | first :: rest => if rest.all (· == first) then some first else none

/-- One round of replacing joins of one value; the joins that stay come out last first. -/
def foldTrivial (state : Substitution × List PendingPhi) (p : PendingPhi) :
    Substitution × List PendingPhi :=
  let (subst, kept) := state
  match soleOperand subst p with
  | some value => (subst.insert p.target value, kept)
  | none => (subst, p :: kept)

/-- Replaces joins of one value by it until none is left. -/
def foldAll : (fuel : Nat) → Substitution → List PendingPhi → Substitution × List PendingPhi
  | 0, subst, phis => (subst, phis)
  | fuel + 1, subst, phis =>
    let (subst, kept) := phis.foldl foldTrivial (subst, [])
    if kept.length = phis.length then (subst, phis) else foldAll fuel subst kept.reverse

/-- The joins of all reached blocks with their operands, and whether they read nothing somewhere. -/
def pendingPhis (plan : Plan) (entry : Entry) (done : Progress) (m : Ir.Method) :
    List (PendingPhi × Bool) :=
  (List.range plan.blocks.size).flatMap fun index =>
    match (done[index]?).join with
    | none => []
    | some followed =>
      followed.phis.zipIdx.filterMap fun (stmt, reg) =>
        (m.action stmt).defines?.map fun target =>
          let (args, isOpen) := phiOperands plan entry done reg (plan.block index).preds
          ({ stmt, target, args }, isOpen)

/-- Gives the joins their operands, drops those that read nothing somewhere, and replaces those of
one value. Reading a dropped join is a failure. -/
def fillPhis (plan : Plan) (entry : Entry) (done : Progress) (m : Ir.Method) :
    Outcome Ir.Method := do
  let pending := pendingPhis plan entry done m
  let m := pending.foldl (fun m (p, _) => m.setAction p.stmt (.phi p.target p.args)) m
  let (opened, whole) := pending.partition Prod.snd
  let whole := whole.map Prod.fst
  let (dropped, whole) :=
    dropOpen (whole.length + 1) (.ofList (opened.map fun p => p.1.target)) whole
  let (subst, kept) := foldAll (whole.length + 1) (.identity m.locals.size) whole
  let isKept := kept.foldl (fun (flags : Array Bool) p => flags.setIfInBounds p.stmt true)
    (Array.replicate m.stmts.size false)
  let m := m.removeWhere fun id => (m.action id).isPhi && !isKept.getD id false
  let m := m.mapActions (Action.substitute subst)
  if m.actions.any fun action => action.uses.any dropped.mem then
    Outcome.fail .undefinedRegister
  return m

/-- The type a handler catches: that of its traps when they agree and name one. -/
def caughtType (m : Ir.Method) (handler : Label) : Text :=
  let types := (m.traps.filter fun t => t.handler == handler).map Trap.type
  match types with
  | [] => throwableDesc
  | first :: rest => if rest.all (· == first) && !first.isEmpty then first else throwableDesc

/-- Gives every caught exception the type its handler catches. -/
def setCaughtTypes (m : Ir.Method) : Ir.Method :=
  let step (state : Ir.Method × Label) (id : StmtId) : Ir.Method × Label :=
    let (m, current) := state
    match m.action id with
    | .label l => (m, l)
    | .identity target (.node (.caught ..) args) =>
      let desc := caughtType m current
      let m := m.setAction id (.identity target (.node (.caught (.refTo desc) desc) args))
      (m.setLocalType target (.refTo desc), current)
    | _ => (m, current)
  (m.order.foldl step (m, .nowhere)).1

def build (file : Dex.File) (ref : MethodRef) (code : Dex.Code) (plan : Plan) (m : Ir.Method) :
    Outcome Ir.Method := do
  let (label, m) := m.newLabel
  let m := m.add { action := .label label }
  let (m, registers) ← prologue ref code m
  let entry : Entry := { label, out := registers }
  let (m, done) ← followAll file plan entry code.registers.toNat
    (Plan.reversePostorder plan.blocks) m (Array.replicate plan.blocks.size none)
  let m ← fillPhis plan entry done (linkAll plan done m)
  return setCaughtTypes m

end Lower

def Dex.Method.lower (file : Dex.File) (method : Dex.Method) : Outcome Ir.Method :=
  match method.code with
  | none => Outcome.failWith .noCode method.ref.text
  | some code =>
    if code.instructions.isEmpty then
      Outcome.failWith .fallsOff (method.ref.text ++ ": empty code")
    else Outcome.under (.detail method.ref.text) do
      let (m, plan) ← Lower.Plan.make (.ofRef method.ref method.access) code
      Lower.build file method.ref code plan m

end DexLift
