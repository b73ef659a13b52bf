import DexLift.Proofs.Dalvik.RoundTrip
import DexLift.Proofs.Lower.Coverage

/-!
# What labels name

Branches, switches and handlers of code that was read lead to instructions, and
a block begins at each of these. The labels of lowered statements and traps are
those of these blocks. What a switch does without a matching key is looked up by
the address behind it: when its own table or some other data stands there, no
instruction is found, and the label is that of the first block, although the
next block is entered as a successor.
-/

namespace DexLift.Lower

open Ir Dalvik List Source

variable {file : Dex.File} {offset addr : UInt32} {index : Nat} {a : Action}

/-- The block at a position begins with the instruction at an address. -/
structure Plan.BeginsAt (plan : Plan) (k : Nat) (addr : UInt32) : Prop where
  own : k < plan.source.starts.length
  first : (plan.source.at_ (plan.source.startOf k)).addr = addr

def Plan.Names (plan : Plan) (addr : UInt32) (l : Label) : Prop :=
  ∃ k, plan.BeginsAt k addr ∧ l = (plan.block k).label

/-- The label for all other keys of a switch at the end of a block: that of the last successor of
the block, which begins with the next instruction, when that directly follows the switch, and that
of the first block otherwise. -/
def Plan.Defaults (plan : Plan) (k index : Nat) (l : Label) : Prop :=
  ∃ next, (plan.block k).succs.getLast? = some next ∧ plan.source.startOf next = index + 1 ∧
    l = if (plan.source.at_ (index + 1)).addr =
        (plan.source.at_ index).addr + UInt32.ofNat (plan.source.at_ index).size then
      (plan.block next).label else (plan.block 0).label

/-- The labels of the statement for the last instruction of a block. -/
inductive Plan.Directs (plan : Plan) (k index : Nat) : Action → Prop where
  | goto {l : Label} (target : plan.Names (plan.source.at_ index).target l) :
      Directs plan k index (.goto l)
  | branch {cond : Cond} {left : Expr} {right : Option Expr} {l : Label}
      (target : plan.Names (plan.source.at_ index).target l) :
      Directs plan k index (.branch cond left right l)
  | switch {value : Expr} {keys : List Int32} {targets : List UInt32} {labels : List Label}
      {default : Label} (table : (plan.source.at_ index).payload = some (.branches keys targets))
      (each : List.Forall₂ plan.Names targets labels) (others : plan.Defaults k index default) :
      Directs plan k index (.switch value keys labels default)

/-! ## Instructions that lead elsewhere -/

theorem isBranch_of_branches (op : Dex.Opcode) (branches : op.flow.branches = true) :
    op.format.isBranch = true := by
  have holds : (!op.flow.branches || op.format.isBranch) = true :=
    Dex.format_flow_of_runs (p := fun _ format flow => !flow.branches || format.isBranch)
      (by decide) (by decide) op
  simpa [branches] using holds

theorem meaning_of_switches (op : Dex.Opcode) (switches : op.flow.switches = true) :
    meaning op = .switch := by
  have holds : (!op.flow.switches || meaning op == .switch) = true :=
    Dex.flow_of_runs (p := fun op flow => !flow.switches || meaning op == .switch)
      (by decide) (by decide) op
  simpa [switches] using holds

theorem payload_of_switch {i : Dex.Instruction} {move : Option Dex.Instruction} {value : Nat}
    {keys : List Int32} {targets : List UInt32}
    (does : operation? file i move = some (.switch value keys targets)) :
    i.payload = some (.branches keys targets) := by
  have means := meaning_of_switches i.op (flowsAs_of_operation does).switches.symm
  simp only [operation?, instructionSet_eq, means] at does
  split at does
  next table =>
    obtain ⟨_, -, same⟩ := Option.bind_eq_some_iff.mp does
    cases same
    exact table
  · cases does

theorem indexOf_isSome_of_readCode {code : Dex.Code} (read : file.readCode offset = .ok code)
    (inside : index < (ofCode code).instructions.size)
    (leads : ((ofCode code).at_ index).op.flow.branches = true ∧
        addr = ((ofCode code).at_ index).target ∨
      addr ∈ switchTargets ((ofCode code).at_ index)) :
    ∃ target, (ofCode code).indexOf? addr = some target := by
  obtain ⟨_, -, decoded⟩ := Dex.decoded_of_readCode read
  have listed : (ofCode code).at_ index ∈ code.instructions := by
    have bound : index < code.instructions.length := by simpa [ofCode] using inside
    simp [at_, ofCode, bound]
  obtain ⟨branch, switch⟩ := Dex.leads_of_decodeInstructions decoded _ listed
  have starts : Dex.Starts code.instructions addr := by
    rcases leads with ⟨branches, rfl⟩ | switched
    · exact branch (isBranch_of_branches _ branches)
    · unfold switchTargets at switched
      split at switched
      next keys targets table => exact switch _ table addr switched
      · cases switched
  obtain ⟨j, member, rfl⟩ := starts
  refine Option.isSome_iff_exists.mp (Array.findIdx?_isSome.trans ?_)
  simpa [ofCode] using ⟨j, member, rfl⟩

variable {file : Dex.File} {ref : MethodRef} {isStatic : Bool} {code : Dex.Code} {m : Ir.Method}
  {s : Shape}

namespace Lowered

variable (lowered : Lowered file ref isStatic code m s)

include lowered

theorem names_labelOf {target : Nat} (found : s.plan.source.indexOf? addr = some target)
    (start : target ∈ s.plan.source.starts) :
    s.plan.BeginsAt (Plan.blockOf s.plan.source s.plan.starts addr) addr := by
  rw [lowered.starts]
  obtain ⟨own, begins⟩ := blockOf_of_start found start
  refine ⟨own, ?_⟩
  obtain ⟨bound, matching, -⟩ := Array.findIdx?_eq_some_iff_getElem.mp found
  rw [begins, at_, Array.getD_eq_getD_getElem?, Array.getElem?_eq_getElem bound]
  simpa using matching

theorem names_of_jump (read : file.readCode offset = .ok code)
    (inside : index < s.plan.source.instructions.size)
    (leads : (s.plan.source.at_ index).op.flow.branches = true ∧
        addr = (s.plan.source.at_ index).target ∨
      addr ∈ switchTargets (s.plan.source.at_ index)) :
    s.plan.Names addr (s.plan.labelOf addr) := by
  have known : ∃ target, s.plan.source.indexOf? addr = some target := by
    rw [lowered.source] at inside leads ⊢
    exact indexOf_isSome_of_readCode read inside leads
  obtain ⟨target, found⟩ := known
  exact ⟨_, lowered.names_labelOf found (mem_starts_of_jump inside leads found), rfl⟩

theorem defaults_of_switch (read : file.readCode offset = .ok code) {k : Nat}
    (listed : k ∈ s.layout) (own : k < s.plan.source.starts.length)
    (last : s.plan.source.stopOf k = index + 1)
    (continues : (s.plan.source.at_ index).op.flow.continues = true) :
    s.plan.Defaults k index
      (s.plan.labelOf
        ((s.plan.source.at_ index).addr + UInt32.ofNat (s.plan.source.at_ index).size)) := by
  obtain ⟨next, -, -⟩ := lowered.next_block listed own
    (by rwa [last, Nat.add_sub_cancel])
  have apart := precedes_of_readCode read
  rw [← lowered.source] at apart
  refine ⟨k + 1, ?_, (startOf_succ next).trans last, ?_⟩
  · rw [Plan.block, lowered.sound.succs k own]
    simp [Plan.initial, Plan.normalSuccs, last, continues, next]
  · rw [Plan.labelOf, lowered.starts, blockOf_behind apart next last]
    split <;> rfl

theorem mem_body (member : a ∈ m.actions) (leads : a.targets ≠ []) :
    ∃ k ∈ s.layout, a ∈ (s.piece k).body := by
  rcases lowered.mem_actions member with rfl | naming | ⟨k, listed, inSegment⟩
  · exact absurd rfl leads
  · exact absurd (quiet_of_isNaming (lowered.enters.isNaming a naming)).2.1 leads
  · simp only [Shape.segment, mem_append] at inSegment
    rcases inSegment with ((start | join) | body) | stop
    · obtain ⟨index, -, rfl⟩ := mem_map.mp start
      exact absurd rfl leads
    · obtain ⟨r, -, rfl⟩ := mem_map.mp join
      exact absurd rfl leads
    · exact ⟨k, listed, body⟩
    · obtain ⟨index, -, rfl⟩ := mem_map.mp stop
      exact absurd rfl leads

theorem tried_of_mem {t : Trapped} (trapped : t ∈ s.trapped) : t.source ∈ s.plan.source.tries := by
  have listed := mem_map_of_mem (f := Trapped.source) trapped
  rw [lowered.sources] at listed
  exact mem_of_mem_filter listed

theorem indexOf_isSome {t : Dex.Try} (tried : t ∈ s.plan.source.tries) {h : Dex.Handler}
    (handles : h ∈ t.handlers) : (s.plan.source.indexOf? h.addr).isSome = true := by
  have known := find?_eq_none.mp lowered.handlers h.addr
    (mem_map_of_mem (mem_flatMap.mpr ⟨t, tried, handles⟩))
  simpa [Option.isSome_iff_ne_none] using known

theorem directs_of_stemsFrom (read : file.readCode offset = .ok code) {k : Nat}
    (listed : k ∈ s.layout) (own : k < s.plan.source.starts.length)
    (after : s.plan.source.startOf k ≤ index) (before : index < s.plan.source.stopOf k)
    (stems : StemsFrom file s.plan index a) (leads : a.targets ≠ []) :
    s.plan.source.stopOf k = index + 1 ∧ s.plan.Directs k index a := by
  obtain ⟨op, new, regs, out, emitted, subst, does, emits, rfl⟩ := stems
  rw [targets_substitute] at leads
  have flows := flowsAs_of_operation does
  have inside := lt_of_lt_of_le before stopOf_le
  have last (transfers : Lower.transfers op = true) : s.plan.source.stopOf k = index + 1 :=
    stopOf_of_transfers own after before (flows.transfers ▸ transfers)
  have named (addr : UInt32) (jumps : addr ∈ Lower.jumps op) :
      s.plan.Names addr (s.plan.labelOf addr) :=
    lowered.names_of_jump read inside ((flows.jumps addr jumps).imp_right And.right)
  -- Only a switch goes by its table.
  have target (addr : UInt32) (jumps : addr ∈ Lower.jumps op) (plain : Lower.switches op = false) :
      addr = (s.plan.source.at_ index).target := by
    rcases flows.jumps addr jumps with ⟨-, same⟩ | ⟨switched, -⟩
    · exact same
    · rw [← flows.switches, plain] at switched
      cases switched
  cases emits with
  | goto =>
    have here := named _ (mem_singleton_self _)
    rw [target _ (mem_singleton_self _) rfl] at here ⊢
    exact ⟨last rfl, .goto here⟩
  | branch | branchZero =>
    have here := named _ (mem_singleton_self _)
    rw [target _ (mem_singleton_self _) rfl] at here ⊢
    exact ⟨last rfl, .branch here⟩
  | @switch value keys targets id held =>
    refine ⟨last rfl, .switch (payload_of_switch does) ?_ ?_⟩
    · exact List.forall₂_map_right_iff.mpr (List.forall₂_same.mpr fun addr member => named addr member)
    · exact lowered.defaults_of_switch read listed own (last rfl) (flows.continues ▸ rfl)
  | _ => exact absurd rfl leads

end Lowered

/-- Labels name the blocks that operands lead to. Every statement with labels is that of the last
instruction of a reached block, or it leads from the block in front of a handler to the handler. The
label of a branch, and each one in the table of a switch, is that of the block that begins with the
addressed instruction; all other keys of a switch go to the last successor of its block if that
directly follows the switch, and to the first block otherwise. Traps lead to the block that begins
with the handler, or to the block in front of that. -/
theorem lower_names_blocks {method : Dex.Method} {offset : UInt32}
    (done : method.lower file = .ok m) (hasCode : method.code = some code)
    (read : file.readCode offset = .ok code) :
    ∃ (named : Ir.Method) (plan : Plan),
      Plan.make (.ofRef method.ref method.access) code = .ok (named, plan) ∧
      (∀ a ∈ m.actions, a.targets ≠ [] →
        (∃ k index, plan.ReachedIn k index ∧ plan.source.stopOf k = index + 1 ∧
          plan.Directs k index a) ∨
        ∃ k handler, k ∈ Plan.reversePostorder plan.blocks ∧
          (plan.block k).leadsTo = some handler ∧ a = .goto (plan.block handler).label) ∧
      ∀ trap ∈ m.traps, ∃ t ∈ code.tries, ∃ h ∈ t.handlers, trap.type = h.type ∧
        ∃ k, plan.BeginsAt k h.addr ∧
          trap.handler = (plan.block (Plan.landing plan.blocks k)).label := by
  obtain ⟨other, s, named, same, make, planned, lowered⟩ := planned_of_lower done
  cases hasCode.symm.trans same
  refine ⟨named, s.plan, make, ?_, ?_⟩
  · intro a member leads
    obtain ⟨k, listed, inBody⟩ := lowered.mem_body member leads
    have reached := (planned k).mp listed
    rcases lowered.body_cases listed with ⟨own, -⟩ | ⟨handler, bound, front, jump, -⟩
    · obtain ⟨origins, traced⟩ :=
        lowered.traced_of_runs listed own le_rfl (lowered.runs_of_mem listed own)
      obtain ⟨j, within, rfl⟩ := getElem_of_mem inBody
      have bound := traced.stems.length_eq ▸ within
      have stems : StemsFrom file s.plan origins[j] (s.piece k).body[j] :=
        traced.stems.get within bound
      obtain ⟨after, before⟩ := traced.inside _ (getElem_mem bound)
      obtain ⟨last, directs⟩ :=
        lowered.directs_of_stemsFrom read listed own after before stems leads
      exact .inl ⟨k, origins[j], ⟨reached, own, after, before⟩, last, directs⟩
    · have label := lowered.sound.label handler (lt_of_lt_of_le bound lowered.sound.count)
      rw [jump, mem_singleton] at inBody
      exact .inr ⟨k, handler, reached, front, inBody.trans (congrArg Action.goto label.symm)⟩
  · intro trap member
    obtain ⟨t, trapped, h, handles, rfl, reached⟩ := lowered.handler_of_mem member
    have tried := lowered.tried_of_mem trapped
    obtain ⟨target, found⟩ := Option.isSome_iff_exists.mp (lowered.indexOf_isSome tried handles)
    refine ⟨t.source, ?_, h, handles, rfl, _,
      lowered.names_labelOf found (mem_starts_of_try tried handles found), ?_⟩
    · rwa [lowered.source] at tried
    · exact (lowered.sound.label _ (mem_range.mp (mem_of_mem_filter reached))).symm

/-- A file that begins with code: a switch with its table right behind it, and a return. -/
def leapFile : Dex.File :=
  { emptyFile with data := ⟨#[1, 0, 0, 0, 0, 0, 0, 0, 0, 0, 0, 0, 11, 0, 0, 0,
      0x12, 0x10, 0x2b, 0, 3, 0, 0, 0, 0, 1, 1, 0, 5, 0, 0, 0, 9, 0, 0, 0, 0x0e, 0]⟩ }

def leapMethod (code : Dex.Code) : Dex.Method :=
  { ref := { owner := ∅, name := ∅, proto := { params := [], result := ⟨[86]⟩ } }
    access := ⟨8⟩, annotations := [], params := [], code := some code }

/-- The one key of the switch leads to the next block, and all others to the first. -/
theorem lower_names_blocks_leaping : ∃ code m, leapFile.readCode 0 = .ok code ∧
    (leapMethod code).lower leapFile = .ok m ∧ ∃ a ∈ m.actions, a.targets = [.number 0, .number 1] ∧
      ∃ (plan : Plan) (k index : Nat), plan.ReachedIn k index ∧ plan.Directs k index a := by
  have succeeds : ((leapFile.readCode 0).toOption.bind fun code =>
      ((leapMethod code).lower leapFile).toOption.map fun m =>
        m.actions.any (·.targets == [.number 0, .number 1])) = some true := by decide +kernel
  cases read : leapFile.readCode 0 with
  | error stop =>
    rw [read] at succeeds
    cases succeeds
  | ok code =>
    cases done : (leapMethod code).lower leapFile with
    | error stop => simp [read, done, Except.toOption] at succeeds
    | ok m =>
      obtain ⟨a, member, targets⟩ : ∃ a ∈ m.actions, a.targets = [.number 0, .number 1] := by
        simpa [read, done, Except.toOption] using succeeds
      obtain ⟨_, plan, -, named, -⟩ := lower_names_blocks done rfl read
      rcases named a member (by simp [targets]) with ⟨k, index, reached, -, directs⟩ | ⟨_, _, -, -, rfl⟩
      · exact ⟨code, m, rfl, done, a, member, targets, plan, k, index, reached, directs⟩
      · simp [Action.targets] at targets

end DexLift.Lower
