import DexLift.Proofs.Lower.Filling
import Mathlib.Data.List.Induction

/-!
# What a lowered method looks like

The body of a lowered method is the entry and then the reached blocks by
position. A block is: the labels of traps that begin there, its own label, the
joins that stay, its statements, and the labels of traps that end there.
`Lowered` collects all that is known about a method that was lowered; statements
about lowering are proved from it, without looking at how it was done.
-/

namespace DexLift.Lower

open Ir Dalvik List Ir.Action Plan
open Outcome (bind_ok under_ok)

/-! ## Caught exceptions -/

variable {a : Action} {head place : Head} {regs kept out : Registers} {args : List Expr}
  {l new : LocalId} {labelOf : UInt32 → Label} {behind : Label} {op : Operation} {b : PlannedBlock}
  {file : Dex.File} {plan : Plan} {throwing : Option Nat} {m : Ir.Method} {index k : Nat}
  {ids : List StmtId} {id : StmtId} {f : Followed} {low : Nat → Nat} {into : Nat → Registers}
  {actions : List Action} {ref : MethodRef} {code : Dex.Code} {method : Dex.Method}

/-- The same statement, up to the type of the exception it receives. -/
inductive Recast : Action → Action → Prop where
  | same (a : Action) : Recast a a
  | caught {target : LocalId} {type other : Ty} {desc text : Text} {args : List Expr} :
      Recast (.identity target (.node (.caught type desc) args))
        (.identity target (.node (.caught other text) args))

theorem Recast.trans {b c : Action} (first : Recast a b) (second : Recast b c) : Recast a c := by
  cases first with
  | same => exact second
  | caught =>
    cases second with
    | same | caught => exact .caught

theorem Recast.eq {b : Action} (recast : Recast a b) (other : a.isCaught = false) : b = a := by
  cases recast with
  | same => rfl
  | caught => cases other

theorem Recast.defines {b : Action} (recast : Recast a b) : b.defines? = a.defines? := by
  cases recast <;> rfl

theorem Recast.label {b : Action} (recast : Recast a b) : b.label? = a.label? := by
  cases recast <;> rfl

structure Retyped (m after : Ir.Method) : Prop where
  same : ∃ stmts locals, stmts.size = m.stmts.size ∧ locals.size = m.locals.size ∧
    after = { m with stmts, locals }
  recast : ∀ id, Recast (m.action id) (after.action id)

theorem Retyped.refl (m : Ir.Method) : Retyped m m := ⟨⟨_, _, rfl, rfl, rfl⟩, fun _ => .same _⟩

theorem Retyped.trans {a b c : Ir.Method} (first : Retyped a b) (second : Retyped b c) :
    Retyped a c := by
  refine ⟨?_, fun id => (first.recast id).trans (second.recast id)⟩
  obtain ⟨_, _, stmts, locals, rfl⟩ := first.same
  obtain ⟨_, _, moreStmts, moreLocals, rfl⟩ := second.same
  exact ⟨_, _, moreStmts.trans stmts, moreLocals.trans locals, rfl⟩

theorem retyped_setCaughtTypes (m : Ir.Method) : Retyped m (setCaughtTypes m) := by
  unfold setCaughtTypes
  dsimp only
  rw [← Array.foldl_toList]
  generalize m.order.toList = ids
  generalize Label.nowhere = current
  induction ids generalizing m current with
  | nil => exact .refl m
  | cons id rest ih =>
    rw [foldl_cons]
    split
    · exact ih m _
    next target _ _ args here =>
      refine Retyped.trans ⟨⟨_, _, by simp, by simp, rfl⟩, ?_⟩ (ih _ _)
      intro other
      refine (Ir.Method.action_setAction m id other _).symm ▸ ?_
      split
      next place =>
        rw [place.1, here]
        exact .caught
      · exact .same _
    · exact ih m _

/-! ## Reads -/

theorem applyExpr_node (subst : Substitution) (operator : operates head = true) (args : List Expr) :
    subst.applyExpr (.node head args) = .node head (args.map subst.applyExpr) := by
  have list : ∀ change : Expr → Expr, Expr.mapNodesOf change args = args.map (Expr.mapNodes change) := by
    intro change
    induction args with
    | nil => rfl
    | cons first rest ih => rw [Expr.mapNodesOf, ih, map_cons]
  unfold Substitution.applyExpr
  rw [Expr.mapNodes, list]
  · cases head <;> first | rfl | cases operator
  · rintro rfl
    cases operator

theorem applyExpr_read (subst : Substitution) (id : LocalId) :
    subst.applyExpr (.read id) = .read (subst.resolve id) := rfl

theorem applyExpr_ofInt (subst : Substitution) (n : Int32) : subst.applyExpr (.ofInt n) = .ofInt n :=
  rfl

theorem uses_node (operator : operates head = true) (args : List Expr) :
    (Expr.node head args).uses = args.flatMap Expr.uses := by
  have list : Expr.nodesOf args = args.flatMap Expr.nodes := by
    induction args with
    | nil => rfl
    | cons first rest ih =>
      rw [Expr.nodesOf, ih, flatMap_cons]
  have nodes : (Expr.node head args).nodes = .node head args :: args.flatMap Expr.nodes := by
    rw [Expr.nodes, list]
    rintro rfl
    cases operator
  have own : Expr.local? (.node head args) = none := by
    cases head <;> first | rfl | cases operator
  rw [Expr.uses, nodes, filterMap_cons_none own, filterMap_flatMap]
  rfl

@[simp] theorem uses_read (id : LocalId) : (Expr.read id).uses = [id] := rfl

@[simp] theorem uses_ofInt (n : Int32) : (Expr.ofInt n).uses = [] := rfl

theorem uses_of_reads {operands : List Dalvik.Operand}
    (reads : List.Forall₂ (Reads regs) operands args) (read : l ∈ args.flatMap Expr.uses) :
    ∃ r, regs.getD r none = some l := by
  induction reads with
  | nil => cases read
  | cons first _ ih =>
    rw [flatMap_cons] at read
    rcases mem_append.mp read with here | later
    · cases first with
      | register held =>
        rw [uses_read, mem_singleton] at here
        exact ⟨_, here ▸ held⟩
      | literal => cases here
    · exact ih later

theorem uses_applyExpr_of_reads (subst : Substitution) {operands : List Dalvik.Operand}
    (reads : List.Forall₂ (Reads regs) operands args) :
    (args.map subst.applyExpr).flatMap Expr.uses = (args.flatMap Expr.uses).map subst.resolve := by
  induction reads with
  | nil => rfl
  | cons first _ ih =>
    rw [map_cons, flatMap_cons, flatMap_cons, map_append, ih]
    cases first with
    | register => rw [applyExpr_read, uses_read, uses_read]; rfl
    | literal => rw [applyExpr_ofInt, uses_ofInt]; rfl

section

variable (operator : operates head = true)

include operator

theorem isMissing_node (args : List Expr) : (Expr.node head args).isMissing = false := by
  cases head <;> first | rfl | cases operator

theorem uses_assign (target : LocalId) (args : List Expr) :
    (assign target (.node head args)).uses = args.flatMap Expr.uses := by
  simp [uses, operands, value?, isMissing_node operator, uses_node operator]

theorem uses_void (args : List Expr) : (void (.node head args)).uses = args.flatMap Expr.uses := by
  simp [uses, operands, value?, isMissing_node operator, uses_node operator]

end

theorem uses_store (operator : operates place = true) (args : List Expr) (id : LocalId) :
    (store (.node place args) (.read id)).uses = args.flatMap Expr.uses ++ [id] := by
  have there : (Expr.read id).isMissing = false := rfl
  simp [uses, operands, isMissing_node operator, there, uses_node operator]

theorem substitute_assign (subst : Substitution) (operator : operates head = true)
    (target : LocalId) (args : List Expr) :
    (assign target (.node head args)).substitute subst =
      .assign target (.node head (args.map subst.applyExpr)) := by
  simp [substitute, mapOperands, isMissing_node operator, applyExpr_node subst operator]

theorem substitute_void (subst : Substitution) (operator : operates head = true) (args : List Expr) :
    (void (.node head args)).substitute subst =
      .void (.node head (args.map subst.applyExpr)) := by
  simp [substitute, mapOperands, isMissing_node operator, applyExpr_node subst operator]

theorem substitute_store (subst : Substitution) (operator : operates place = true)
    (args : List Expr) (id : LocalId) :
    (store (.node place args) (.read id)).substitute subst =
      .store (.node place (args.map subst.applyExpr)) (.read (subst.resolve id)) := by
  have there : (Expr.read id).isMissing = false := rfl
  simp [substitute, mapOperands, isMissing_node operator, there,
    applyExpr_node subst operator, applyExpr_read]

section Emitted

variable {labelOf : UInt32 → Label} {behind : Label} {new : LocalId} {regs after : Registers}
  {op : Operation} {a : Action}

section

variable (emits : Emits labelOf behind new regs op (some a) after)

include emits

theorem Emits.uses (read : l ∈ a.uses) : ∃ r, regs.getD r none = some l := by
  have one : ∀ {r id}, regs.getD r none = some id → l ∈ [id] → ∃ r, regs.getD r none = some l :=
    fun held here => ⟨_, mem_singleton.mp here ▸ held⟩
  cases emits with
  | receive => cases read
  | define operator reads => exact uses_of_reads reads (uses_assign operator _ _ ▸ read)
  | discard operator reads => exact uses_of_reads reads (uses_void operator _ ▸ read)
  | store operator reads held =>
    rw [uses_store operator] at read
    rcases mem_append.mp read with operand | value
    · exact uses_of_reads reads operand
    · exact one held value
  | fill held | enter held | exit held | branchZero held | switch held | returnValue held
  | throw held => exact one held read
  | branch held held' =>
    rcases mem_cons.mp (show l ∈ [_, _] from read) with here | later
    · exact ⟨_, here ▸ held⟩
    · exact one held' later
  | goto => cases read
  | returnVoid => cases read

theorem Emits.uses_substitute
    (subst : Substitution) : (a.substitute subst).uses = a.uses.map subst.resolve := by
  cases emits with
  | define operator reads =>
    rw [substitute_assign subst operator, uses_assign operator, uses_assign operator,
      uses_applyExpr_of_reads subst reads]
  | discard operator reads =>
    rw [substitute_void subst operator, uses_void operator, uses_void operator,
      uses_applyExpr_of_reads subst reads]
  | store operator reads held =>
    rw [substitute_store subst operator, uses_store operator, uses_store operator,
      uses_applyExpr_of_reads subst reads, map_append]
    rfl
  | _ => rfl

end

end Emitted

/-! ## Blocks -/

/-- What stands for each local in the end, which joins are dropped, and a bound for the locals that
registers hold. -/
structure Verdict where
  subst : Substitution
  dropped : LocalSet
  bound : Nat

namespace Verdict

/-- The local that stands for another. -/
def resolve (v : Verdict) (l : LocalId) : LocalId := v.subst.resolve l

/-- Whether a local is defined after all. -/
def Whole (v : Verdict) (l : LocalId) : Prop := v.dropped.mem l = false

/-- What stands for locals is smaller and stands for itself; dropped joins are not replaced, nor do
they replace anything. -/
structure Lawful (v : Verdict) : Prop where
  le : ∀ l : Nat, v.resolve l ≤ l
  last : ∀ l, v.resolve (v.resolve l) = v.resolve l
  gone : ∀ l, ¬ v.Whole l → v.resolve l = l
  whole : ∀ l, v.Whole l → v.Whole (v.resolve l)

end Verdict

/-- From an instruction to the end of its block in the finished method: the statements, and what the
registers hold first and last. `kept` is what they hold before the instruction `throwing`. -/
inductive Runs (file : Dex.File) (plan : Plan) (b : PlannedBlock) (throwing : Option Nat)
    (kept : Registers) (v : Verdict) : Nat → Registers → List Action → Registers → Prop where
  | finish {index : Nat} {regs : Registers} (ended : b.stop ≤ index) (bounded : Below regs v.bound) :
      Runs file plan b throwing kept v index regs [] regs
  | step {index new : Nat} {regs middle out : Registers} {op : Operation}
      {emitted : Option Action} {rest : List Action} (inside : index < b.stop)
      (does : operation? file (plan.source.at_ index) (moveIn plan b index) = some op)
      (emits : Emits plan.labelOf
        (plan.labelOf ((plan.source.at_ index).addr + UInt32.ofNat (plan.source.at_ index).size))
        new regs op emitted middle)
      (below : Below regs new) (bounded : Below regs v.bound)
      (reads : ∀ a, emitted = some a → ∀ l ∈ a.uses, v.Whole l)
      (fixed : ∀ a, emitted = some a → ∀ l, a.defines? = some l → v.resolve l = l ∧ v.Whole l)
      (receives : meaning (plan.source.at_ index).op = .moveException →
        index = b.start ∧ b.isHandler = true)
      (keeps : throwing = some index → kept = regs)
      (more : Runs file plan b throwing kept v (nextIn plan b index) middle rest out) :
      Runs file plan b throwing kept v index regs
        (emitted.toList.map (Action.substitute v.subst) ++ rest) out

theorem Emits.finished {after : Registers} {last : Action}
    (emits : Emits labelOf behind new regs op (some a) after) (subst : Substitution)
    (recast : Recast (a.substitute subst) last) :
    ∃ other, Emits labelOf behind new regs op (some other) after ∧ other.defines? = a.defines? ∧
      last = other.substitute subst := by
  by_cases caught : (a.substitute subst).isCaught = false
  · exact ⟨a, emits, rfl, recast.eq caught⟩
  · cases emits with
    | receive puts =>
      generalize shown : (identity new (.leaf (.caught _ _))).substitute subst = resolved
        at recast
      cases recast with
      | same => exact ⟨_, .receive puts, rfl, shown.symm⟩
      | @caught target type other desc text args =>
        have parts : target = new ∧ args = [] := by
          cases shown
          exact ⟨rfl, rfl⟩
        obtain ⟨rfl, rfl⟩ := parts
        exact ⟨.identity target (.leaf (.caught other text)), .receive puts, rfl, rfl⟩
    | define operator reads puts =>
      rw [substitute_assign subst operator] at caught
      exact absurd rfl caught
    | _ => exact absurd rfl caught

theorem Emits.not_phi {after : Registers} (emits : Emits labelOf behind new regs op (some a) after) :
    a.isPhi = false := by
  cases emits <;> rfl

section

variable (follows : Follows file plan b throwing kept m index regs ids out)

include follows

theorem Follows.not_phi : ∀ id ∈ ids, (m.action id).isPhi = false :=
  follows.forall_emitted fun emits => emits.not_phi

theorem Follows.runs {last : Ir.Method} {v : Verdict}
    (lawful : v.Lawful)
    (defines : ∀ id ∈ ids, ∀ l, (m.action id).defines? = some l →
      l < v.bound ∧ v.resolve l = l ∧ v.Whole l)
    (bounded : Below regs v.bound)
    (finished : ∀ id ∈ ids, Recast ((m.action id).substitute v.subst) (last.action id))
    (unread : ∀ id ∈ ids, ∀ l ∈ (last.action id).uses, v.Whole l) :
    Runs file plan b throwing kept v index regs (ids.map last.action) out := by
  induction follows with
  | finish ended => exact .finish ended bounded
  | @step index new regs middle out op emitted ids rest inside does emits below makes receives keeps
      more ih =>
    have later := ih (fun id member => defines id (mem_append_right _ member))
    rw [map_append]
    cases emitted with
    | none =>
      have nothing : ids = [] := by simpa using makes
      rw [nothing]
      refine .step inside does emits below bounded (by simp) (by simp) receives keeps (later ?_
        (fun id member => finished id (mem_append_right _ member))
        (fun id member => unread id (mem_append_right _ member)))
      exact emits.below bounded (by simp)
    | some a =>
      obtain ⟨id, rfl, action⟩ : ∃ id, ids = [id] ∧ m.action id = a := by
        match ids, makes with
        | [id], makes => exact ⟨id, rfl, by simpa using makes⟩
      obtain ⟨other, emitsOther, sameDefined, lastAction⟩ := emits.finished v.subst
        (action ▸ finished id (by simp))
      have shown : [id].map last.action =
          (some other).toList.map (substitute v.subst) := by simp [lastAction]
      rw [shown]
      refine .step inside does emitsOther below bounded ?_ ?_ receives keeps (later ?_
        (fun id member => finished id (mem_append_right _ member))
        (fun id member => unread id (mem_append_right _ member)))
      · intro a same l read
        cases same
        by_contra gone
        have resolved : l ∈ (last.action id).uses := by
          rw [lastAction, emitsOther.uses_substitute]
          exact mem_map.mpr ⟨l, read, lawful.gone l gone⟩
        exact gone (unread id (by simp) l resolved)
      · intro a same l defined
        cases same
        rw [sameDefined, ← action] at defined
        exact (defines id (by simp) l defined).2
      · refine emits.below bounded fun other same l defined => ?_
        cases same
        exact (defines id (by simp) l (action ▸ defined)).1

end

/-! ## Methods -/

/-- A reached block of the finished method: what following it came to, the first of its own locals,
what the registers hold at its entry, the registers whose joins stay, and its statements. -/
structure Piece where
  followed : Followed
  low : Nat
  into : Registers
  joins : List Nat
  body : List Action

/-- The parts a lowered method is made of. -/
structure Shape where
  plan : Plan
  entry : Entry
  /-- The number of registers. -/
  count : Nat
  done : Progress
  /-- The statements that name the receiver and the parameters. -/
  opening : List Action
  trapped : List Trapped
  verdict : Verdict
  piece : Nat → Piece

namespace Shape

variable (s : Shape)

/-- The reached blocks, in the order of the body. -/
def layout : List Nat := Lower.layout s.plan s.done

def along (e : Edge) : Registers := registersAlong s.entry s.done e

def operands (k r : Nat) : List PhiArg :=
  (phiOperands s.plan s.entry s.done r (s.plan.block k).preds).1

/-- The join of a register at the entry of a block. -/
def phi (k r : Nat) : Action :=
  (Action.phi ((s.piece k).low + r) (s.operands k r)).substitute s.verdict.subst

/-- The statements of a block with its labels. -/
def segment (k : Nat) : List Action :=
  labelled (startsAt s.trapped k ++ [k]) ++ (s.piece k).joins.map (s.phi k) ++ (s.piece k).body ++
    labelled (stopsAt s.trapped k)

inductive Joined (k r : Nat) : Prop where
  | dropped (gone : ¬ s.verdict.Whole ((s.piece k).low + r)) (out : r ∉ (s.piece k).joins)
  | kept (whole : s.verdict.Whole ((s.piece k).low + r))
      (ways : ∀ e ∈ (s.plan.block k).preds, Known s.done e → ∃ l,
        (s.along e).getD r none = some l ∧ s.verdict.Whole l ∧
          operandOf s.plan s.entry e l ∈ s.operands k r)
      (stays : r ∈ (s.piece k).joins)
      (fixed : s.verdict.resolve ((s.piece k).low + r) = (s.piece k).low + r)
  | replaced (whole : s.verdict.Whole ((s.piece k).low + r))
      (ways : ∀ e ∈ (s.plan.block k).preds, Known s.done e → ∃ l,
        (s.along e).getD r none = some l ∧ s.verdict.Whole l ∧
          s.verdict.resolve l = s.verdict.resolve ((s.piece k).low + r))
      (out : r ∉ (s.piece k).joins)
      (smaller : s.verdict.resolve ((s.piece k).low + r) < (s.piece k).low)

structure Reached (file : Dex.File) (k : Nat) : Prop where
  followed : followed? s.done k = some (s.piece k).followed
  single : (s.plan.block k).isJoin = false → (s.piece k).joins = [] ∧
    ∃ e, (s.plan.block k).preds = [e] ∧ Known s.done e ∧ (s.piece k).into = s.along e
  several : (s.plan.block k).isJoin = true → (s.piece k).into = countingFrom (s.piece k).low s.count ∧
    ∀ r < s.count, s.Joined k r
  registers : (s.piece k).joins.Sublist (List.range s.count)
  bounded : Below (s.piece k).into s.verdict.bound
  out : Below (s.piece k).followed.out s.verdict.bound
  front : ∀ next, (s.plan.block k).leadsTo = some next →
    (s.piece k).followed.out = (s.piece k).into ∧
      (s.piece k).body = [.goto (s.plan.block next).label]
  instructions : (s.plan.block k).leadsTo = none →
    Runs file s.plan (s.plan.block k) (throwingOf s.plan (s.plan.block k))
      (s.piece k).followed.beforeThrow s.verdict (s.plan.block k).start (s.piece k).into
      (s.piece k).body (s.piece k).followed.out

end Shape

/-- All that is known about a method that was lowered. -/
structure Lowered (file : Dex.File) (ref : MethodRef) (isStatic : Bool) (code : Dex.Code)
    (m : Ir.Method) (s : Shape) : Prop where
  source : s.plan.source = .ofCode code
  starts : s.plan.starts = s.plan.source.starts
  handlers : s.plan.source.strayHandler? = none
  nonempty : 0 < s.plan.source.starts.length
  sound : Plan.Sound s.plan.source s.plan.blocks
  size : s.done.size = s.plan.blocks.size
  count : s.count = code.registers.toNat
  entry : s.entry.label = .number s.plan.blocks.size
  enters : Enters ref isStatic code s.opening s.entry.out
  first : 0 ∈ s.layout
  closed : ∀ k ∈ s.layout, ∀ t ∈ Plan.leavesTo s.plan.blocks k, t ∈ s.layout
  ends : ∀ k ∈ s.layout, k + 1 = s.plan.source.starts.length →
    (s.plan.source.at_ (s.plan.source.stopOf k - 1)).op.flow.continues = false
  reached : ∀ k ∈ s.layout, s.Reached file k
  tidy : m.Tidy
  defines : DefinesOnce m
  actions : m.actions =
    .label (.number s.plan.blocks.size) :: s.opening ++ s.layout.flatMap s.segment
  traps : m.traps = s.trapped.flatMap (Trapped.traps s.plan s.done)
  sources : s.trapped.map Trapped.source =
    s.plan.source.tries.filter fun t => !(insideOf s.plan s.done t).isEmpty
  bounds : ∀ t ∈ s.trapped, (insideOf s.plan s.done t.source).head? = some t.first ∧
    (insideOf s.plan s.done t.source).getLast? = some t.last
  labels : s.trapped.flatMap (fun t => [t.start, t.stop]) =
    List.range' (s.plan.blocks.size + 1) (2 * s.trapped.length)
  lawful : s.verdict.Lawful
  below : ∀ e, Known s.done e → Below (s.along e) s.verdict.bound
  opening : ∀ a ∈ s.opening, ∀ l, a.defines? = some l →
    s.verdict.resolve l = l ∧ s.verdict.Whole l
  defined : ∀ l < s.verdict.bound, s.verdict.Whole l →
    ∃ a ∈ m.actions, a.defines? = some (s.verdict.resolve l)

/-! ## Putting the parts together -/

section Parts

variable {file : Dex.File} {plan : Plan} {entry : Entry} {count : Nat} {start m : Ir.Method}
  {ks : List Nat} {done : Progress} {trapped : List Trapped} {front back : Nat → List StmtId}
  {linked filled last : Ir.Method} {subst : Substitution} {dropped : LocalSet}
  {keeps : StmtId → Bool}

/-- The statements of a block without its joins. -/
def bodyOf (done : Progress) (k : Nat) : List StmtId := ((followed? done k).map Followed.body).getD []

theorem idsOf_eq (done : Progress) (k : Nat) : idsOf done k = phisOf done k ++ bodyOf done k := by
  unfold idsOf phisOf bodyOf
  cases followed? done k <;> rfl

section

variable (filling : Filled plan entry done linked filled subst dropped keeps)
  (retyped : Retyped filled last)

include filling retyped

theorem recast_of_plain (inBody : id ∈ linked.order.toList)
    (plain : (linked.action id).isPhi = false) :
    Recast ((linked.action id).substitute subst) (last.action id) := by
  have stays : id ∈ filled.order.toList := by
    rw [filling.order]
    exact mem_filter.mpr ⟨inBody, filling.others id plain⟩
  rw [← filling.plain id stays plain]
  exact retyped.recast id

theorem action_of_stable (inBody : id ∈ linked.order.toList) (here : linked.action id = a)
    (plain : a.isPhi = false) (stable : a.substitute subst = a) (other : a.isCaught = false) :
    last.action id = a := by
  have recast := recast_of_plain filling retyped inBody (here ▸ plain)
  rw [here, stable] at recast
  exact recast.eq other

theorem map_labelled {numbers : List Nat} (inBody : ∀ id ∈ ids, id ∈ linked.order.toList)
    (labels : ids.map linked.action = labelled numbers) :
    ids.map last.action = labelled numbers := by
  rw [← labels]
  apply map_congr_left
  intro id member
  have action := labels ▸ mem_map_of_mem (f := linked.action) member
  obtain ⟨index, -, here⟩ := mem_map.mp action
  exact (action_of_stable filling retyped (inBody id member) here.symm rfl rfl rfl).trans here

end

theorem mem_linked (linking : Linked plan done m trapped front back linked)
    (member : k ∈ layout plan done) (inBlock : id ∈ front k ++ idsOf done k ++ back k) :
    id ∈ linked.order.toList := by
  rw [linking.order]
  exact mem_append_right _ (mem_flatMap.mpr ⟨k, member, inBlock⟩)

theorem Built.not_phi {low : Nat} {into : Registers}
    (built : Built file plan entry count m done k f low into) :
    ∀ id ∈ f.body, (m.action id).isPhi = false := by
  intro id member
  cases leads : (plan.block k).leadsTo with
  | some next =>
    have action := (built.body.front next leads).2 ▸ mem_map_of_mem (f := m.action) member
    rw [mem_singleton.mp action]
    rfl
  | none => exact (built.body.instructions leads).not_phi id member

theorem filter_map_range {α β : Type} (xs : List α) (p : α → Bool) (f : α → β) (g : Nat → β)
    (same : ∀ r x, xs[r]? = some x → p x = true → f x = g r) :
    (xs.filter p).map f = ((List.range xs.length).filter fun r => (xs[r]?).any p).map g := by
  induction xs using List.reverseRecOn with
  | nil => rfl
  | append_singleton xs x ih =>
    have before : ∀ r ∈ List.range xs.length, (((xs ++ [x])[r]?).any p) = (xs[r]?).any p := by
      intro r inside
      rw [getElem?_append_left (mem_range.mp inside)]
    have first := ih fun r y found =>
      same r y (by rw [getElem?_append_left (lt_of_get found), found])
    rw [length_append, length_singleton, range_succ, filter_append,
      filter_append, map_append, map_append, filter_congr before, first]
    congr 1
    have last : (xs ++ [x])[xs.length]? = some x := by simp
    cases here : p x with
    | true =>
      rw [filter_cons_of_pos here, filter_cons_of_pos (by rwa [last])]
      simp [same xs.length x last here]
    | false =>
      rw [filter_cons_of_neg (by simp [here]), filter_cons_of_neg (by rw [last]; simpa using here)]
      rfl

/-- The registers of a block whose joins stay. -/
def keptRegisters (done : Progress) (keeps : StmtId → Bool) (count k : Nat) : List Nat :=
  (List.range count).filter fun r => ((phisOf done k)[r]?).any keeps

/-- The shape of a method from the parts that lowering makes. -/
def shapeOf (plan : Plan) (entry : Entry) (count : Nat) (done : Progress) (opening : List Action)
    (trapped : List Trapped) (verdict : Verdict) (low : Nat → Nat) (into : Nat → Registers)
    (keeps : StmtId → Bool) (last : Ir.Method) : Shape where
  plan := plan
  entry := entry
  count := count
  done := done
  opening := opening
  trapped := trapped
  verdict := verdict
  piece k :=
    { followed := (followed? done k).getD { out := #[], body := [] }
      low := low k
      into := into k
      joins := keptRegisters done keeps count k
      body := (bodyOf done k).map last.action }

theorem Built.getElem_phis {low : Nat} {into : Registers}
    (built : Built file plan entry count m done k f low into)
    (isJoin : (plan.block k).isJoin = true) :
    f.phis.length = count ∧ ∀ r id, f.phis[r]? = some id → m.action id = .phi (low + r) [] := by
  have actions := (built.joins isJoin).2
  refine ⟨?_, ?_⟩
  · simpa using congrArg List.length actions
  · intro r id found
    have here := congrArg (fun xs : List Action => xs[r]?) actions
    simp only [getElem?_map, found, Option.map_some] at here
    obtain ⟨l, listed, action⟩ := Option.map_eq_some_iff.mp here.symm
    obtain ⟨_, same⟩ := List.getElem?_eq_some_iff.mp listed
    rw [← action, ← same]
    simp

section

variable (linking : Linked plan done m trapped front back linked)

include linking

theorem joinAt_of_built
    (member : k ∈ layout plan done) (followed : followed? done k = some f) {low : Nat}
    {into : Registers} (built : Built file plan entry count m done k f low into)
    (isJoin : (plan.block k).isJoin = true) {r : Nat} (found : f.phis[r]? = some id) :
    JoinAt plan entry done linked k r
        { stmt := id, target := low + r
          args := (phiOperands plan entry done r (plan.block k).preds).1 } ∧
      id ∈ linked.order.toList ∧ r < count := by
  have inPhis : id ∈ f.phis := mem_of_getElem? found
  have action : linked.action id = .phi (low + r) [] :=
    (linking.action id (built.made id (mem_append_left _ inPhis))).trans
      ((built.getElem_phis isJoin).2 r id found)
  refine ⟨⟨mem_range.mp (mem_of_mem_filter member), ?_, by rw [action]; rfl, rfl⟩, ?_, ?_⟩
  · rwa [phisOf, followed]
  · refine mem_linked linking member ?_
    rw [idsOf_eq, phisOf, followed]
    simp [inPhis]
  · rw [← (built.getElem_phis isJoin).1]
    exact lt_of_get found

theorem joined_of_built
    (filling : Filled plan entry done linked filled subst dropped keeps)
    (retyped : Retyped filled last) (opening : List Action) (bound : Nat)
    (member : k ∈ layout plan done) (followed : followed? done k = some f)
    (built : Built file plan entry count m done k f (low k) (into k))
    (isJoin : (plan.block k).isJoin = true) {r : Nat} (found : f.phis[r]? = some id) :
    (shapeOf plan entry count done opening trapped ⟨subst, dropped, bound⟩ low into keeps
      last).Joined k r ∧
    (keeps id = true → last.action id =
      (shapeOf plan entry count done opening trapped ⟨subst, dropped, bound⟩ low into keeps
        last).phi k r) := by
  obtain ⟨join, inBody, inside⟩ := joinAt_of_built linking member followed built isJoin found
  have kept : r ∈ keptRegisters done keeps count k ↔ keeps id = true := by
    unfold keptRegisters
    rw [mem_filter, join.listed]
    simp [inside]
  have ways := (phiOperands_spec plan entry done r (plan.block k).preds).2
  cases filling.joins k r _ join inBody with
  | dropped gone out =>
    refine ⟨.dropped (fun whole => ?_) (fun stays => ?_), fun stays => ?_⟩
    · rw [show dropped.mem (low k + r) = false from whole] at gone
      cases gone
    · rw [kept.mp stays] at out
      cases out
    · rw [stays] at out
      cases out
  | kept whole closed reads stays fixed shown =>
    refine ⟨.kept whole ?_ (kept.mpr stays) fixed, fun _ => ?_⟩
    · intro e edge known
      obtain ⟨l, held, operand⟩ := ways closed e edge known
      exact ⟨l, held, reads _ operand, operand⟩
    · have recast := retyped.recast id
      rw [show filled.action id = _ from shown] at recast
      exact recast.eq rfl
  | replaced whole closed reads out operands =>
    refine ⟨.replaced whole ?_ (fun stays => ?_) ?_, fun stays => ?_⟩
    · intro e edge known
      obtain ⟨l, held, operand⟩ := ways closed e edge known
      exact ⟨l, held, reads _ operand, operands _ operand⟩
    · rw [kept.mp stays] at out
      cases out
    · obtain ⟨a, operand, smaller⟩ := join.smaller closed built
      have le := filling.le a.value
      rw [operands a operand] at le
      exact Nat.lt_of_le_of_lt le smaller
    · rw [stays] at out
      cases out

end

section

variable (progressed : Progressed file plan entry count start ks m done)
  (linking : Linked plan done m trapped front back linked)
  (filling : Filled plan entry done linked filled subst dropped keeps)
  (retyped : Retyped filled last) (lawful : (Verdict.mk subst dropped m.locals.size).Lawful)
  (member : k ∈ layout plan done)

include progressed linking filling retyped lawful member

theorem runs_of_built (followed : followed? done k = some f) {low : Nat} {into : Registers}
    (built : Built file plan entry count m done k f low into) (below : Below into m.locals.size)
    (leads : (plan.block k).leadsTo = none) :
    Runs file plan (plan.block k) (throwingOf plan (plan.block k)) f.beforeThrow
      ⟨subst, dropped, m.locals.size⟩ (plan.block k).start into (f.body.map last.action) f.out := by
  have inBody : ∀ id ∈ f.body, id ∈ linked.order.toList := by
    intro id inside
    refine mem_linked linking member ?_
    rw [idsOf, followed]
    simp [inside]
  have action : ∀ id ∈ f.body, linked.action id = m.action id := fun id inside =>
    linking.action id (built.made id (mem_append_right _ inside))
  have plain : ∀ id ∈ f.body, (linked.action id).isPhi = false := by
    intro id inside
    rw [action id inside]
    exact built.not_phi id inside
  refine (built.body.instructions leads).runs lawful ?_ below ?_ ?_
  · intro id inside l defined
    refine ⟨progressed.makes.defines.known id l defined, filling.fixed l fun other again => ?_⟩
    rw [← action id inside] at defined
    rw [linking.defines.once other id l again defined]
    exact plain id inside
  · intro id inside
    rw [← action id inside]
    exact recast_of_plain filling retyped (inBody id inside) (plain id inside)
  · intro id inside l read
    have stays : id ∈ filled.order.toList := by
      rw [filling.order]
      exact mem_filter.mpr ⟨inBody id inside, filling.others id (plain id inside)⟩
    refine filling.unread id stays l ?_
    have recast := retyped.recast id
    generalize filled.action id = before at recast ⊢
    generalize last.action id = after at recast read
    cases recast with
    | same => exact read
    | caught => exact read

theorem reached_of_built {opening : List Action} (followed : followed? done k = some f)
    (built : Built file plan entry count m done k f (low k) (into k)) :
    (shapeOf plan entry count done opening trapped ⟨subst, dropped, m.locals.size⟩ low into keeps
      last).Reached file k := by
  have here : (followed? done k).getD { out := #[], body := [] } = f := by rw [followed]; rfl
  have body : bodyOf done k = f.body := by rw [bodyOf, followed]; rfl
  have below : Below (into k) m.locals.size := by
    cases isJoin : (plan.block k).isJoin with
    | false =>
      obtain ⟨-, e, -, known, same⟩ := built.single isJoin
      rw [same]
      exact progressed.below known
    | true =>
      rw [(built.joins isJoin).1]
      intro r l held
      rw [countingFrom_getD] at held
      split at held
      next inside =>
        cases held
        obtain ⟨length, phis⟩ := built.getElem_phis isJoin
        have found : f.phis[r]? = some (f.phis.get ⟨r, by omega⟩) :=
          getElem?_eq_getElem (by omega)
        exact progressed.makes.defines.known _ _ (by rw [phis r _ found]; rfl)
      · cases held
  refine ⟨followed.trans (congrArg some here.symm), ?_, ?_, ?_, below, ?_, ?_, ?_⟩
  · intro isJoin
    obtain ⟨none, facts⟩ := built.single isJoin
    refine ⟨?_, facts⟩
    refine filter_eq_nil_iff.mpr fun r _ => ?_
    rw [phisOf, followed]
    simp [none]
  · intro isJoin
    refine ⟨(built.joins isJoin).1, fun r inside => ?_⟩
    have found : f.phis[r]? = some (f.phis.get ⟨r, by rwa [(built.getElem_phis isJoin).1]⟩) :=
      getElem?_eq_getElem _
    exact (joined_of_built linking filling retyped _ _ member followed built isJoin found).1
  · exact filter_sublist
  · show Below ((followed? done k).getD _).out _
    rw [here]
    exact built.out
  · intro next leads
    obtain ⟨out, actions⟩ := built.body.front next leads
    refine ⟨?_, ?_⟩
    · show ((followed? done k).getD _).out = _
      rwa [here]
    · show (bodyOf done k).map last.action = [.goto (plan.block next).label]
      rw [body]
      have inBody : ∀ id ∈ f.body, id ∈ linked.order.toList := by
        intro id inside
        refine mem_linked linking member ?_
        rw [idsOf, followed]
        simp [inside]
      rw [← actions]
      apply map_congr_left
      intro id inside
      have action : linked.action id = .goto (plan.block next).label := by
        rw [linking.action id (built.made id (mem_append_right _ inside))]
        exact mem_singleton.mp (actions ▸ mem_map_of_mem (f := m.action) inside)
      rw [action_of_stable filling retyped (inBody id inside) action rfl rfl rfl, ← action]
      exact linking.action id (built.made id (mem_append_right _ inside))
  · intro leads
    have runs := runs_of_built progressed linking filling retyped lawful member followed built below
      leads
    show Runs file plan _ _ ((followed? done k).getD _).beforeThrow _ _ _
      ((bodyOf done k).map last.action) ((followed? done k).getD _).out
    rwa [here, body]

end

end Parts

/-! ## The entry -/

/-- What names the receiver or a parameter. -/
def isNaming : Action → Bool
  | .identity _ (.node .this []) | .identity _ (.node (.param _) []) => true
  | _ => false

theorem Names.isNaming {params : List (Text × Nat)} {reg new : Nat}
    (names : Names params reg regs new actions out) : ∀ a ∈ actions, Lower.isNaming a = true := by
  induction names with
  | nil => simp
  | cons _ _ ih =>
    intro a member
    rcases mem_cons.mp member with rfl | later
    · rfl
    · exact ih a later

theorem Enters.isNaming {isStatic : Bool} (enters : Enters ref isStatic code actions out) :
    ∀ a ∈ actions, Lower.isNaming a = true := by
  cases enters with
  | static _ names => exact names.isNaming
  | receiver _ names =>
    intro a member
    rcases mem_cons.mp member with rfl | later
    · rfl
    · exact names.isNaming a later

theorem stable_of_isNaming (naming : isNaming a = true) (subst : Substitution) :
    a.isPhi = false ∧ a.substitute subst = a ∧ a.isCaught = false ∧ a.label? = none := by
  unfold isNaming at naming
  split at naming
  · exact ⟨rfl, rfl, rfl, rfl⟩
  · exact ⟨rfl, rfl, rfl, rfl⟩
  · cases naming

theorem tidy_blank (base : Ir.Method) (plain : base.chain = none) (order : base.order = #[])
    (count : Nat) : (blank base count).Tidy := by
  have nowhere : ∀ l, (blank base count).placedAt? l = none := by
    intro l
    cases l with
    | nowhere => rfl
    | number index =>
      by_cases inside : index < count
      · simp [Ir.Method.placedAt?, blank, inside]
      · simp [Ir.Method.placedAt?, blank, inside]
  have empty : (blank base count).order = #[] := order
  refine ⟨plain, by simp [empty], by simp [empty], by simp [empty], ?_⟩
  intro l id placed
  rw [nowhere l] at placed
  cases placed

/-- What the entry of a method comes to. -/
structure Begun (ref : MethodRef) (isStatic : Bool) (code : Dex.Code) (plan : Plan)
    (opening : List Action) (out : Registers) (start : Ir.Method) : Prop where
  opens : Opening plan start
  actions : start.actions = .label (.number plan.blocks.size) :: opening
  enters : Enters ref isStatic code opening out
  below : Below out start.locals.size
  defines : DefinesOnce start
  all : ∀ l < start.locals.size, ∃ id ∈ start.order.toList, (start.action id).defines? = some l

theorem begun_of_prologue {access : Access} {start : Ir.Method}
    (named : prologue ref code ((blank (.ofRef ref access) (plan.blocks.size + 1)).add
      { action := .label (.number plan.blocks.size) }) = .ok (start, out)) :
    ∃ opening, Begun ref access.isStatic code plan opening out start := by
  have tidy := tidy_blank (.ofRef ref access) rfl rfl (plan.blocks.size + 1)
  have nothing : ∀ id, (blank (.ofRef ref access) (plan.blocks.size + 1)).action id = .nop :=
    fun id => Ir.Method.action_of_size_le (Nat.zero_le _)
  have defines : DefinesOnce (blank (.ofRef ref access) (plan.blocks.size + 1)) := by
    refine ⟨?_, ?_, fun l inside => absurd inside (Nat.not_lt_zero l)⟩
    · intro id l defined
      rw [nothing id] at defined
      cases defined
    · intro id other l defined
      rw [nothing id] at defined
      cases defined
  have known : plan.blocks.size <
      (blank (.ofRef ref access) (plan.blocks.size + 1)).placed.size := by simp [blank]
  obtain ⟨one, here⟩ := appends_label tidy defines known (by simp [Ir.Method.actions, blank, Ir.Method.ofRef])
  have locals : ((blank (.ofRef ref access) (plan.blocks.size + 1)).add
      { action := .label (.number plan.blocks.size) }).locals.size = 0 := by
    rcases Nat.eq_zero_or_pos _ with none | some
    · exact none
    · obtain ⟨id, member, defined⟩ := one.fresh 0 (Nat.le_refl 0) some
      rw [mem_singleton.mp member, here] at defined
      cases defined
  obtain ⟨ids, two, enters, below⟩ := prologue_spec named one.tidy one.defines locals
  have both := one.trans two
  have actions : start.actions = .label (.number plan.blocks.size) :: ids.map start.action := by
    rw [two.actions one.tidy, one.actions tidy, map_singleton, here]
    simp [Ir.Method.actions, blank, Ir.Method.ofRef]
  refine ⟨ids.map start.action, ⟨both.tidy, ?_, ?_, ?_⟩, actions, ?_, below, two.defines, ?_⟩
  · rw [both.placed]
    simp [blank]
  · rw [both.traps]
    rfl
  · intro index label
    rw [actions] at label
    rcases mem_cons.mp label with same | later
    · cases same
      rfl
    · have naming := enters.isNaming _ later
      cases naming
  · have static : ((blank (.ofRef ref access) (plan.blocks.size + 1)).add
        { action := .label (.number plan.blocks.size) }).isStatic = access.isStatic := by
      obtain ⟨_, _, _, _, -, same⟩ := one.same
      rw [same]
      rfl
    rwa [← static]
  · intro l inside
    obtain ⟨id, member, defined⟩ := two.fresh l (by rw [locals]; exact Nat.zero_le l) inside
    exact ⟨id, by rw [two.order]; exact mem_append_right _ member, defined⟩

section Assembly

variable {file : Dex.File} {ref : MethodRef} {isStatic : Bool} {code : Dex.Code} {plan : Plan}
  {entry : Entry} {opening : List Action} {start m : Ir.Method} {ks : List Nat} {done : Progress}
  {trapped : List Trapped} {front back : Nat → List StmtId} {linked filled last : Ir.Method}
  {subst : Substitution} {dropped : LocalSet} {keeps : StmtId → Bool} {count : Nat} {access : Access}
  {blank : Ir.Method}

theorem lawful_of_filled (filling : Filled plan entry done linked filled subst dropped keeps)
    (bound : Nat) : (Verdict.mk subst dropped bound).Lawful := by
  refine ⟨filling.le, filling.last, ?_, filling.whole⟩
  intro l gone
  exact filling.gone l (by simpa [Verdict.Whole] using gone)

theorem map_opening (begun : Begun ref isStatic code plan opening entry.out start)
    (progressed : Progressed file plan entry count start ks m done)
    (linking : Linked plan done m trapped front back linked)
    (filling : Filled plan entry done linked filled subst dropped keeps)
    (retyped : Retyped filled last) :
    start.order.toList.map last.action = .label (.number plan.blocks.size) :: opening ∧
      ∀ id ∈ start.order.toList, keeps id = true := by
  have order : m.order = start.order := by
    obtain ⟨_, _, same⟩ := progressed.makes.grows.same
    rw [same]
  have stable : ∀ id ∈ start.order.toList, (start.action id).isPhi = false ∧
      (start.action id).substitute subst = start.action id ∧ (start.action id).isCaught = false := by
    intro id member
    have action : start.action id ∈ start.actions := mem_map_of_mem member
    rw [begun.actions] at action
    rcases mem_cons.mp action with label | naming
    · rw [label]
      exact ⟨rfl, rfl, rfl⟩
    · obtain ⟨plain, same, other, -⟩ := stable_of_isNaming (begun.enters.isNaming _ naming) subst
      exact ⟨plain, same, other⟩
  have here : ∀ id ∈ start.order.toList, linked.action id = start.action id := by
    intro id member
    have made := begun.opens.tidy.made id member
    rw [linking.action id (Nat.lt_of_lt_of_le made progressed.makes.grows.stmts),
      progressed.makes.grows.action id made]
  have inBody : ∀ id ∈ start.order.toList, id ∈ linked.order.toList := by
    intro id member
    rw [linking.order, order]
    exact mem_append_left _ member
  refine ⟨?_, ?_⟩
  · rw [← begun.actions]
    apply map_congr_left
    intro id member
    obtain ⟨plain, same, other⟩ := stable id member
    exact action_of_stable filling retyped (inBody id member) (here id member) plain same other
  · intro id member
    exact filling.others id (by rw [here id member]; exact (stable id member).1)

theorem map_segment (linking : Linked plan done m trapped front back linked)
    (filling : Filled plan entry done linked filled subst dropped keeps)
    (retyped : Retyped filled last) {bound : Nat} (member : k ∈ layout plan done)
    (followed : followed? done k = some f)
    (built : Built file plan entry count m done k f (low k) (into k)) :
    ((front k ++ idsOf done k ++ back k).filter keeps).map last.action =
      (shapeOf plan entry count done opening trapped ⟨subst, dropped, bound⟩ low into keeps
        last).segment k := by
  have inBody : ∀ {id}, id ∈ front k ++ idsOf done k ++ back k → id ∈ linked.order.toList :=
    fun inside => mem_linked linking member inside
  have labels : ∀ {ids : List StmtId} {numbers}, ids.map linked.action = labelled numbers →
      ids.filter keeps = ids := by
    intro ids numbers same
    refine filter_eq_self.mpr fun id inside => filling.others id ?_
    have action := same ▸ mem_map_of_mem (f := linked.action) inside
    obtain ⟨index, -, here⟩ := mem_map.mp action
    rw [← here]
    rfl
  have bodyStays : f.body.filter keeps = f.body := by
    refine filter_eq_self.mpr fun id inside => filling.others id ?_
    rw [linking.action id (built.made id (mem_append_right _ inside))]
    exact built.not_phi id inside
  have joins : (f.phis.filter keeps).map last.action =
      (keptRegisters done keeps count k).map
        ((shapeOf plan entry count done opening trapped ⟨subst, dropped, bound⟩ low into keeps
          last).phi k) := by
    cases isJoin : (plan.block k).isJoin with
    | false =>
      have none := (built.single isJoin).1
      have nothing : keptRegisters done keeps count k = [] := by
        refine filter_eq_nil_iff.mpr fun r _ => ?_
        rw [phisOf, followed]
        simp [none]
      rw [none, nothing]
      rfl
    | true =>
      have places := filter_map_range f.phis keeps last.action _ fun r id found stays =>
        (joined_of_built linking filling retyped opening bound member followed built isJoin
          found).2 stays
      rw [places, (built.getElem_phis isJoin).1, keptRegisters]
      rw [show phisOf done k = f.phis by rw [phisOf, followed]; rfl]
  have frontLabels := map_labelled filling retyped
    (fun id inside => inBody (by simp [inside])) (linking.before k member)
  have backLabels := map_labelled filling retyped
    (fun id inside => inBody (by simp [inside])) (linking.behind k member)
  rw [filter_append, filter_append, labels (linking.before k member),
    labels (linking.behind k member), idsOf, followed]
  dsimp only
  rw [filter_append, bodyStays, map_append, map_append, map_append, frontLabels,
    backLabels, joins, ← append_assoc]
  show _ = labelled _ ++ List.map _ _ ++ (bodyOf done k).map last.action ++ labelled _
  rw [show bodyOf done k = f.body by rw [bodyOf, followed]; rfl]
  rfl

theorem Retyped.tidy (retyped : Retyped filled last) (tidy : filled.Tidy) : last.Tidy := by
  obtain ⟨stmts, locals, size, -, same⟩ := retyped.same
  have order : last.order = filled.order := by rw [same]
  refine tidy.of_same_labels (by rw [same]; exact tidy.plain) (by rw [order]; exact tidy.nodup)
    ?_ ?_ ?_
  · intro id member
    rw [order] at member
    rw [same]
    exact Nat.lt_of_lt_of_eq (tidy.made id member) size.symm
  · intro id l
    rw [order]
    refine and_congr_right fun _ => ?_
    rw [← label?_eq_some, (retyped.recast id).label, label?_eq_some]
  · intro l
    exact Ir.Method.placedAt_congr (by rw [same]) l

theorem definesOnce_of_filled (linking : Linked plan done m trapped front back linked)
    (filling : Filled plan entry done linked filled subst dropped keeps)
    (retyped : Retyped filled last) : DefinesOnce last := by
  have same : ∀ id, (last.action id).defines? = (linked.action id).defines? :=
    fun id => (retyped.recast id).defines.trans (filling.defines id)
  have locals : last.locals.size = linked.locals.size := by
    obtain ⟨_, _, -, size, equal⟩ := retyped.same
    rwa [equal, ← filling.locals]
  refine ⟨?_, ?_, ?_⟩
  · intro id l defined
    rw [locals]
    exact linking.defines.known id l (same id ▸ defined)
  · intro id other l first second
    exact linking.defines.once id other l (same id ▸ first) (same other ▸ second)
  · intro l inside
    rw [locals] at inside
    obtain ⟨id, -, defined⟩ := linking.defines.all l inside
    refine ⟨id, ?_, (same id).trans defined⟩
    by_contra outside
    rw [← same id, Ir.Method.action_of_size_le (Nat.le_of_not_lt outside)] at defined
    cases defined

section

variable (begun : Begun ref isStatic code plan opening entry.out start)
  (progressed : Progressed file plan entry count start ks m done)
  (inside : ∀ k ∈ ks, k < plan.blocks.size) (linking : Linked plan done m trapped front back linked)

include begun progressed inside linking

theorem exists_linked (bound : l < m.locals.size) :
    ∃ id ∈ linked.order.toList, (linked.action id).defines? = some l ∧
      (id ∈ start.order.toList ∨ ∃ k ∈ layout plan done, id ∈ idsOf done k) := by
  have grows := progressed.makes.grows
  by_cases old : l < start.locals.size
  · obtain ⟨id, member, defined⟩ := begun.all l old
    have made := begun.opens.tidy.made id member
    refine ⟨id, ?_, ?_, .inl member⟩
    · obtain ⟨_, _, same⟩ := grows.same
      rw [linking.order, same]
      exact mem_append_left _ member
    · rw [linking.action id (lt_of_lt_of_le made grows.stmts), grows.action id made, defined]
  · obtain ⟨id, made, defined⟩ := progressed.makes.defines.all l bound
    have new : start.stmts.size ≤ id := by
      by_contra early
      have before := grows.action id (Nat.lt_of_not_le early)
      rw [before] at defined
      exact old (begun.defines.known id l defined)
    have listed : id ∈ ks.flatMap (idsOf done) := by
      rw [progressed.makes.range, mem_range'_1]
      exact ⟨new, by rwa [← progressed.makes.size]⟩
    obtain ⟨k, followed, inBlock⟩ := mem_flatMap.mp listed
    have member : k ∈ layout plan done := mem_filter.mpr
      ⟨mem_range.mpr (inside k followed), (progressed.reached k).mpr followed⟩
    refine ⟨id, mem_linked linking member (by simp [inBlock]), ?_, .inr ⟨k, member, inBlock⟩⟩
    rw [linking.action id made, defined]

theorem exists_defining (filling : Filled plan entry done linked filled subst dropped keeps)
    (retyped : Retyped filled last) (bound : l < m.locals.size) (whole : dropped.mem l = false) :
    ∃ a ∈ last.actions, a.defines? = some (subst.resolve l) := by
  obtain ⟨id, inBody, defined, place⟩ := exists_linked begun progressed inside linking
    (Nat.lt_of_le_of_lt (filling.le l) bound)
  have stays : keeps id = true := by
    rcases place with early | ⟨k, member, inBlock⟩
    · exact (map_opening begun progressed linking filling retyped).2 id early
    · obtain ⟨f, followed⟩ := Option.isSome_iff_exists.mp (mem_filter.mp member).2
      obtain ⟨low, into, built⟩ := progressed.built k f followed
      rw [idsOf, followed] at inBlock
      rcases mem_append.mp inBlock with phi | body
      · obtain ⟨r, found⟩ := mem_iff_getElem?.mp phi
        cases isJoin : (plan.block k).isJoin with
        | false =>
          rw [(built.single isJoin).1] at phi
          cases phi
        | true =>
          obtain ⟨join, -, -⟩ := joinAt_of_built linking member followed built isJoin found
          -- The join defines what stands for `l`, so it was neither dropped nor replaced.
          have target : subst.resolve l = low + r := by
            have same := join.target
            rw [defined] at same
            exact Option.some.inj same
          cases filling.joins k r _ join inBody with
          | dropped gone _ =>
            have gone : dropped.mem (low + r) = true := gone
            rw [← target, filling.whole l whole] at gone
            cases gone
          | kept _ _ _ stays _ _ => exact stays
          | replaced _ closed _ _ operands =>
            obtain ⟨a, operand, smaller⟩ := join.smaller closed built
            have le := filling.le a.value
            have here : subst.resolve a.value = subst.resolve (low + r) := operands a operand
            rw [here, ← target, filling.last l, target] at le
            exact absurd (Nat.lt_of_le_of_lt le smaller) (Nat.not_lt.mpr (Nat.le_add_right low r))
      · refine filling.others id ?_
        rw [linking.action id (built.made id (mem_append_right _ body))]
        exact built.not_phi id body
  refine ⟨last.action id, mem_map_of_mem ?_, ?_⟩
  · obtain ⟨_, _, -, -, same⟩ := retyped.same
    rw [same]
    show id ∈ filled.order.toList
    rw [filling.order]
    exact mem_filter.mpr ⟨inBody, stays⟩
  · rw [(retyped.recast id).defines, filling.defines id, defined]

end

theorem lowered_of_parts (made : Made (.ofRef ref access) code blank plan)
    (begun : Begun ref isStatic code plan opening entry.out start)
    (label : entry.label = .number plan.blocks.size)
    (progressed : Progressed file plan entry code.registers.toNat start
      (reversePostorder plan.blocks) m done)
    (linking : Linked plan done m trapped front back linked)
    (filling : Filled plan entry done linked filled subst dropped keeps)
    (retyped : Retyped filled last) :
    ∃ s, s.plan = plan ∧ (∀ k, k ∈ s.layout ↔ k ∈ reversePostorder plan.blocks) ∧
      Lowered file ref isStatic code last s := by
  have nonempty : 0 < plan.source.starts.length := made.starts ▸ made.nonempty
  have ordered := ordered_reversePostorder
    (lt_of_lt_of_le nonempty made.sound.count) made.sound.closed
  have lawful := lawful_of_filled filling m.locals.size
  have listed : ∀ k, k ∈ layout plan done ↔ k ∈ reversePostorder plan.blocks := by
    intro k
    rw [layout, mem_filter, mem_range, progressed.reached k]
    exact ⟨fun here => here.2, fun here => ⟨ordered.inside k here, here⟩⟩
  -- Every reached block has its first local and the registers it is entered with.
  have pieces : ∀ k, ∃ low into, ∀ f, followed? done k = some f →
      Built file plan entry code.registers.toNat m done k f low into := by
    intro k
    cases followed : followed? done k with
    | none => exact ⟨0, #[], by simp⟩
    | some f =>
      obtain ⟨low, into, built⟩ := progressed.built k f followed
      refine ⟨low, into, fun other same => ?_⟩
      cases same
      exact built
  choose low into built using pieces
  have order : last.order = filled.order := by
    obtain ⟨_, _, -, -, same⟩ := retyped.same
    rw [same]
  have startOrder : m.order = start.order := by
    obtain ⟨_, _, same⟩ := progressed.makes.grows.same
    rw [same]
  obtain ⟨openingActions, openingStays⟩ := map_opening begun progressed linking filling retyped
  refine ⟨shapeOf plan entry code.registers.toNat done opening trapped
    ⟨subst, dropped, m.locals.size⟩ low into keeps last, rfl, listed, made.source, made.starts,
    made.handlers, nonempty, made.sound, progressed.size, rfl, label, begun.enters, ?_, ?_, ?_, ?_, retyped.tidy filling.tidy,
    definesOnce_of_filled linking filling retyped, ?_, ?_, linking.sources, linking.bounds,
    linking.labels, lawful, fun e known => progressed.below known, ?_, ?_⟩
  · obtain ⟨rest, order⟩ := ordered.first
    exact (listed 0).mpr (by rw [order]; exact mem_cons_self)
  · intro k member t edge
    exact (listed t).mpr (ordered.closed k ((listed k).mp member) t edge)
  · intro k member end_
    exact made.ends ((listed k).mp member) end_
  · intro k member
    obtain ⟨f, followed⟩ := Option.isSome_iff_exists.mp (mem_filter.mp member).2
    exact reached_of_built progressed linking filling retyped lawful member followed
      (built k f followed)
  · rw [Ir.Method.actions, order, filling.order, linking.order, startOrder, filter_append,
      map_append, filter_eq_self.mpr openingStays, openingActions, filter_flatMap,
      map_flatMap]
    refine congrArg _ (flatMap_congr fun k member => ?_)
    obtain ⟨f, followed⟩ := Option.isSome_iff_exists.mp (mem_filter.mp member).2
    exact map_segment linking filling retyped member followed (built k f followed)
  · obtain ⟨_, _, -, -, same⟩ := retyped.same
    rw [same]
    exact filling.traps.trans linking.traps
  · intro a member l defined
    have inActions : a ∈ start.actions := by
      rw [begun.actions]
      exact .tail _ member
    obtain ⟨id, inBody, rfl⟩ := mem_map.mp inActions
    have isMade := begun.opens.tidy.made id inBody
    have here : linked.action id = start.action id := by
      rw [linking.action id (lt_of_lt_of_le isMade progressed.makes.grows.stmts),
        progressed.makes.grows.action id isMade]
    refine filling.fixed l fun other definedThere => ?_
    rw [linking.defines.once other id l definedThere (by rw [here, defined]), here]
    exact (stable_of_isNaming (begun.enters.isNaming _ member) subst).1
  · intro l bound whole
    exact exists_defining begun progressed ordered.inside linking filling retyped bound whole

end Assembly

theorem planned_of_lower (done : method.lower file = .ok m) :
    ∃ code s named, method.code = some code ∧
      make (.ofRef method.ref method.access) code = .ok (named, s.plan) ∧
      (∀ k, k ∈ s.layout ↔ k ∈ reversePostorder s.plan.blocks) ∧
      Lowered file method.ref method.access.isStatic code m s := by
  unfold Dex.Method.lower at done
  split at done
  · cases done
  next code hasCode =>
    split at done
    · cases done
    next nonempty =>
      obtain ⟨⟨planned, plan⟩, make, built⟩ := bind_ok.mp (under_ok.mp done)
      have made := made_of_make rfl (by simpa using nonempty) make
      dsimp only at built
      unfold build at built
      rw [made.method, newLabel_blank] at built
      obtain ⟨⟨start, out⟩, named, built⟩ := bind_ok.mp built
      obtain ⟨⟨grown, done⟩, followed, built⟩ := bind_ok.mp built
      obtain ⟨filled, filling, ending⟩ := bind_ok.mp built
      cases ending
      obtain ⟨opening, begun⟩ := begun_of_prologue named
      have wellOrdered := ordered_reversePostorder
        (lt_of_lt_of_le (made.starts ▸ made.nonempty) made.sound.count) made.sound.closed
      have nothing : ∀ k, followed? (Array.replicate plan.blocks.size none) k = none := by
        intro k
        rw [followed?, Array.getElem?_replicate]
        split <;> rfl
      have begins : Progressed file plan ⟨.number plan.blocks.size, out⟩ code.registers.toNat start
          [] start (Array.replicate plan.blocks.size none) := by
        refine ⟨by simp, ?_, ?_, begun.below, .refl begun.defines⟩
        · intro k
          rw [nothing k]
          simp
        · intro k f here
          rw [nothing k] at here
          cases here
      have progressed := followAll_spec made.sound wellOrdered begins followed
      obtain ⟨trapped, front, back, linking⟩ := linkAll_spec made.sound begun.opens progressed
      obtain ⟨subst, dropped, keeps, filledUp⟩ := fillPhis_spec progressed linking.tidy
        linking.defines linking.made linking.action filling
      obtain ⟨s, rfl, listed, lowered⟩ := lowered_of_parts made begun rfl progressed linking filledUp
        (retyped_setCaughtTypes filled)
      exact ⟨code, s, planned, hasCode, make, listed, lowered⟩

theorem lowered_of_lower (done : method.lower file = .ok m) :
    ∃ code s, method.code = some code ∧
      Lowered file method.ref method.access.isStatic code m s :=
  let ⟨code, s, _, hasCode, _, _, lowered⟩ := planned_of_lower done
  ⟨code, s, hasCode, lowered⟩

end DexLift.Lower
