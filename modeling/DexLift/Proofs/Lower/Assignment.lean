import DexLift.Proofs.Lower.Paths
import DexLift.Proofs.Lower.Refinement

/-!
# Lowered methods assign once

A lowered method is in static single assignment: no local is defined twice, every
path to a statement has assigned what it reads, and a path along an edge has
assigned what the joins behind that edge name for it. Joins that were dropped
because a register held nothing on some way in are not read.
-/

namespace DexLift.Lower

open Ir Dalvik List

variable {position : Nat} {a : Action} {l target : LocalId} {args : List PhiArg} {arg : PhiArg}

variable {file : Dex.File} {ref : MethodRef} {isStatic : Bool} {code : Dex.Code} {m : Ir.Method}
  {s : Shape} {assigned : List LocalId}

namespace Lowered

variable (lowered : Lowered file ref isStatic code m s)

include lowered

theorem defined_once {other : Nat} {b : Action} (first : m.actions[position]? = some a)
    (second : m.actions[other]? = some b) (defines : a.defines? = some l)
    (definesOther : b.defines? = some l) : position = other := by
  simp only [Ir.Method.actions, getElem?_map, Option.map_eq_some_iff] at first second
  obtain ⟨id, atFirst, rfl⟩ := first
  obtain ⟨id', atSecond, rfl⟩ := second
  cases lowered.defines.once id id' l defines definesOther
  exact getElem?_inj (lt_of_get atFirst) lowered.tidy.nodup
    |>.mp (atFirst.trans atSecond.symm)

theorem reads_assigned (stage : Stage file m s position assigned)
    (found : m.actions[position]? = some a) (read : l ∈ a.uses) : l ∈ assigned := by
  cases lowered.doing stage found with
  | quiet reads =>
    rw [reads] at read
    cases read
  | running _ _ _ _ first _ _ _ provided =>
    rw [first.emits.uses_substitute] at read
    obtain ⟨original, readsOriginal, rfl⟩ := mem_map.mp read
    obtain ⟨r, held⟩ := first.emits.uses readsOriginal
    exact provided r original held (first.reads _ rfl original readsOriginal)
  | leaping => cases read

/-! ## Joins -/

theorem standing_joins {k i : Nat} (listed : k ∈ s.layout) (opens : m.opens (.number k) = true)
    (le : i ≤ (s.piece k).joins.length) : m.standing (s.header k + 1 + i) = ⟨.number k, false⟩ := by
  induction i with
  | zero =>
    rw [Nat.add_zero, Ir.Method.standing_next (lowered.from_header listed)]
    simp [Ir.Method.Standing.pass, opens]
  | succ i ih =>
    obtain ⟨r, rest, -, here⟩ := lowered.join_at listed le
    rw [← Nat.add_assoc, Ir.Method.standing_next here, ih (le_of_lt le), pass_plain rfl]
    rfl

theorem join_of_phi (found : m.actions[position]? = some (.phi target args)) :
    ∃ k ∈ s.layout, m.blockAt position = .number k ∧
      ∃ r ∈ (s.piece k).joins, .phi target args = s.phi k r := by
  have member := mem_of_getElem? found
  rw [lowered.actions, cons_append, mem_cons, mem_append] at member
  rcases member with label | naming | inSegment
  · cases label
  · exact absurd (lowered.enters.isNaming _ naming) (by simp [isNaming])
  · obtain ⟨k, listed, part⟩ := mem_flatMap.mp inSegment
    simp only [Shape.segment, mem_append] at part
    rcases part with ((label | join) | body) | label
    · obtain ⟨_, _, contrary⟩ := mem_map.mp label
      cases contrary
    · obtain ⟨r, stays, same⟩ := mem_map.mp join
      obtain ⟨i, less, atIndex⟩ := mem_iff_getElem.mp stays
      obtain ⟨other, rest, place, here⟩ := lowered.join_at listed less
      have sameJoin : other = r := by grind
      rw [sameJoin, same] at here
      have position_eq := lowered.defined_once found here.get rfl rfl
      have opens := lowered.opens_of_joins listed (ne_nil_of_mem stays)
      refine ⟨k, listed, ?_, r, stays, same.symm⟩
      rw [position_eq, Ir.Method.blockAt_eq here,
        lowered.standing_joins listed opens (le_of_lt less), pass_plain rfl]
    · exact absurd (lowered.body_plain listed _ body).2 (by simp [Action.isPhi])
    · obtain ⟨_, _, contrary⟩ := mem_map.mp label
      cases contrary

theorem operand_of_join {k r : Nat} (listed : k ∈ s.layout) (stays : r ∈ (s.piece k).joins)
    (join : .phi target args = s.phi k r) (operand : arg ∈ args) :
    ∃ e ∈ (s.plan.block k).preds, Known s.done e ∧ arg.exceptional = e.exceptional ∧
      arg.pred = sourceLabel s.plan s.entry e ∧
      ∃ l, (s.along e).getD r none = some l ∧ s.verdict.Whole l ∧ arg.value = s.verdict.resolve l := by
  injection join with _ sameArgs
  rw [sameArgs] at operand
  obtain ⟨original, member, rfl⟩ := mem_map.mp operand
  obtain ⟨e, edge, known, l, held, rfl⟩ := (phiOperands_spec _ _ _ _ _).1 original member
  obtain ⟨-, -, -, ways⟩ := lowered.kept_of_mem listed stays
  obtain ⟨other, heldOther, whole, -⟩ := ways e edge known
  cases heldOther.symm.trans held
  exact ⟨e, edge, known, rfl, rfl, l, held, whole, rfl⟩

theorem operand_of_arrival {block : Label} (arrival : Arrival s block assigned) {e : Edge}
    (known : Known s.done e) (normal : e.exceptional = false)
    (source : block = sourceLabel s.plan s.entry e) : Provided s.verdict (s.along e) assigned := by
  obtain ⟨origin, exceptional⟩ := e
  cases normal
  obtain ⟨label, inside⟩ := lowered.sourceLabel_eq known
  cases origin with
  | none => exact arrival.opened
  | some j =>
    rw [lowered.along_eq (lowered.mem_of_known known rfl)]
    rcases arrival.handsOver j (source.trans label) with contrary | provided
    · exact absurd (inside j rfl) (by omega)
    · exact provided

theorem operand_normal (laid : Laid s.plan.source) {join header : Nat}
    (found : m.actions[join]? = some (.phi target args)) (operand : arg ∈ args)
    (normal : arg.exceptional = false) (place : m.positionOf? (m.blockAt join) = some header)
    (block : m.blockAt position = arg.pred) (edge : header ∈ (Flow.ofMethod m).succsOf position)
    (path : (Flow.ofMethod m).Path position assigned) :
    arg.value ∈ ((Flow.ofMethod m).action position).defines?.toList ++ assigned := by
  obtain ⟨k, listed, inBlock, r, stays, same⟩ := lowered.join_of_phi found
  obtain ⟨e, -, known, kind, pred, l, held, whole, value⟩ :=
    lowered.operand_of_join listed stays same operand
  rw [inBlock, lowered.tidy.positionOf?_eq_find?, lowered.find_header listed] at place
  cases place
  have stage := lowered.stage_of_path laid path
  rw [Flow.succsOf_ofMethod] at edge
  rw [Flow.action_ofMethod]
  cases there : m.actions[position]? with
  | none =>
    rw [there] at edge
    cases edge
  | some a =>
    rw [there] at edge
    have arrival : Arrival s (m.blockAt position) (a.defines?.toList ++ assigned) := by
      rcases Ir.Method.mem_succsAt.mp edge with ⟨falls, -, next⟩ | ⟨l, target, there'⟩
      · exact (lowered.fallen_next stage there falls).2 k listed next.symm
      · rw [lowered.tidy.positionOf?_eq_find?] at there'
        exact (lowered.stage_jump laid stage there target there').2
    have provided := lowered.operand_of_arrival arrival known (kind ▸ normal) (block.trans pred)
    rw [value]
    exact provided r l held whole

theorem operand_thrown (laid : Laid s.plan.source) {join header : Nat}
    (found : m.actions[join]? = some (.phi target args)) (operand : arg ∈ args)
    (exceptional : arg.exceptional = true) (place : m.positionOf? (m.blockAt join) = some header)
    (block : m.blockAt position = arg.pred) (edge : header ∈ (Flow.ofMethod m).exSuccsOf position)
    (path : (Flow.ofMethod m).Path position assigned) : arg.value ∈ assigned := by
  obtain ⟨k, listed, inBlock, r, stays, same⟩ := lowered.join_of_phi found
  obtain ⟨e, -, known, kind, pred, l, held, whole, value⟩ :=
    lowered.operand_of_join listed stays same operand
  rw [inBlock, lowered.tidy.positionOf?_eq_find?, lowered.find_header listed] at place
  cases place
  rw [Flow.exSuccsOf_ofMethod] at edge
  cases there : m.actions[position]? with
  | none =>
    rw [there] at edge
    cases edge
  | some a =>
    rw [there] at edge
    obtain ⟨source, handler, thrown⟩ :=
      lowered.thrown laid.wellPlaced (lowered.stage_of_path laid path) there edge
    have sameHandler : handler = k := by
      have here := (lowered.from_header listed).get
      rw [thrown.place] at here
      cases (lowered.from_header thrown.landed).get.symm.trans here
      rfl
    subst sameHandler
    -- The join names the edge of the exception as well, so its source is opened by its label.
    have knownSource := known_of_mem thrown.listed true
    obtain ⟨-, -, -, ways⟩ := lowered.kept_of_mem listed stays
    obtain ⟨_, -, -, own⟩ := ways _ thrown.edge knownSource
    have label := (lowered.sourceLabel_eq knownSource).1
    have opens := lowered.opens_of_operand listed stays own
    simp only [operandOf, label, Option.getD_some] at opens
    have sources := lowered.source_injective known knownSource
      (pred.symm.trans (block.symm.trans ((thrown.block opens).trans label.symm)))
    obtain ⟨origin, flag⟩ := e
    cases sources
    cases kind.symm.trans exceptional
    rw [lowered.along_eq thrown.listed] at held
    rw [value]
    exact thrown.provided r l held whole

/-! ## Definitions -/

theorem defined_of_runs {b : PlannedBlock} {throwing : Option Nat} {kept regs out : Registers}
    {index : Nat} {actions : List Action}
    (runs : Runs file s.plan b throwing kept s.verdict index regs actions out)
    (member : a ∈ actions) (read : l ∈ a.uses) : ∃ b ∈ m.actions, b.defines? = some l := by
  induction runs with
  | finish => cases member
  | @step index new regs middle out op emitted rest inBlock does emits below bounded reads fixed
      receives keeps more ih =>
    rcases mem_append.mp member with first | later
    · cases emitted with
      | none => cases first
      | some emitted =>
        cases mem_singleton.mp first
        rw [emits.uses_substitute] at read
        obtain ⟨original, readsOriginal, rfl⟩ := mem_map.mp read
        obtain ⟨r, held⟩ := emits.uses readsOriginal
        exact lowered.defined original (bounded r original held)
          (reads emitted rfl original readsOriginal)
    · exact ih later

theorem reads_defined (member : a ∈ m.actions) (read : l ∈ a.uses) :
    ∃ b ∈ m.actions, b.defines? = some l := by
  rw [lowered.actions, cons_append, mem_cons, mem_append] at member
  rcases member with rfl | naming | inSegment
  · cases read
  · rw [(quiet_of_isNaming (lowered.enters.isNaming a naming)).2.2.2] at read
    cases read
  · obtain ⟨k, listed, part⟩ := mem_flatMap.mp inSegment
    simp only [Shape.segment, mem_append] at part
    rcases part with ((label | join) | body) | label
    · obtain ⟨_, _, rfl⟩ := mem_map.mp label
      cases read
    · obtain ⟨_, _, rfl⟩ := mem_map.mp join
      cases read
    · rcases lowered.body_cases listed with ⟨own, -⟩ | ⟨h, -, -, jump, -⟩
      · exact lowered.defined_of_runs (lowered.runs_of_mem listed own) body read
      · rw [jump, mem_singleton] at body
        rw [body] at read
        cases read
    · obtain ⟨_, _, rfl⟩ := mem_map.mp label
      cases read

theorem operands_defined (found : m.actions[position]? = some (.phi target args))
    (operand : arg ∈ args) : ∃ b ∈ m.actions, b.defines? = some arg.value := by
  obtain ⟨k, listed, -, r, stays, same⟩ := lowered.join_of_phi found
  obtain ⟨e, -, known, -, -, l, held, whole, value⟩ :=
    lowered.operand_of_join listed stays same operand
  rw [value]
  exact lowered.defined l (lowered.below e known r l held) whole

theorem lt_of_defined (defined : ∃ a ∈ m.actions, a.defines? = some l) : l < m.locals.size := by
  obtain ⟨a, member, defines⟩ := defined
  obtain ⟨id, -, rfl⟩ := mem_map.mp member
  exact lowered.defines.known id l defines

end Lowered

/-! ## Static single assignment -/

structure AssignsOnce (m : Ir.Method) : Prop where
  /-- No local is defined by two statements of the body. -/
  once : ∀ (position other : Nat) (a b : Action) (l : LocalId), m.actions[position]? = some a →
    m.actions[other]? = some b → a.defines? = some l → b.defines? = some l → position = other
  /-- What a statement reads is assigned in front of it. -/
  reads : ∀ (position : Nat) (a : Action) (l : LocalId), m.actions[position]? = some a →
    l ∈ a.uses → Holds (definitelyAssigned (Flow.ofMethod m) m.locals.size) position l
  /-- What a join names for a normal edge is assigned where that edge leaves the block that the
  operand names. -/
  normal : ∀ (position join header : Nat) (target : LocalId) (args : List PhiArg) (arg : PhiArg),
    m.actions[join]? = some (.phi target args) → arg ∈ args → arg.exceptional = false →
    m.positionOf? (m.blockAt join) = some header → m.blockAt position = arg.pred →
    header ∈ (Flow.ofMethod m).succsOf position →
    ((Flow.ofMethod m).action position).defines? = some arg.value ∨
      Holds (definitelyAssigned (Flow.ofMethod m) m.locals.size) position arg.value
  /-- What a join names for an exceptional edge is assigned in front of the statement that throws. -/
  thrown : ∀ (position join header : Nat) (target : LocalId) (args : List PhiArg) (arg : PhiArg),
    m.actions[join]? = some (.phi target args) → arg ∈ args → arg.exceptional = true →
    m.positionOf? (m.blockAt join) = some header → m.blockAt position = arg.pred →
    header ∈ (Flow.ofMethod m).exSuccsOf position →
    Holds (definitelyAssigned (Flow.ofMethod m) m.locals.size) position arg.value
  /-- What statements read and joins name is defined by a statement of the body. -/
  defined : ∀ a ∈ m.actions, ∀ l ∈ a.uses ++ a.phiArgs.map PhiArg.value,
    ∃ b ∈ m.actions, b.defines? = some l

/-- Lowering gives methods in static single assignment when the instructions stand one after the
other and tries begin and end on their boundaries. -/
theorem lower_assignsOnce {method : Dex.Method} (done : method.lower file = .ok m)
    (hasCode : method.code = some code) (laid : Laid (.ofCode code)) : AssignsOnce m := by
  obtain ⟨other, s, same, lowered⟩ := lowered_of_lower done
  cases hasCode.symm.trans same
  rw [← lowered.source] at laid
  refine ⟨?_, ?_, ?_, ?_, ?_⟩
  · intro position other a b l first second defines definesOther
    exact lowered.defined_once first second defines definesOther
  · intro position a l found read
    refine holds_definitelyAssigned ?_
      (lowered.lt_of_defined (lowered.reads_defined (mem_of_getElem? found) read)) ?_
    · rw [Flow.size_ofMethod, ← Ir.Method.length_actions]
      exact lt_of_get found
    · exact fun _ path => lowered.reads_assigned (lowered.stage_of_path laid path) found read
  · intro position join header target args arg found operand normal place block edge
    by_cases own : ((Flow.ofMethod m).action position).defines? = some arg.value
    · exact .inl own
    · refine .inr (holds_definitelyAssigned (Flow.lt_size_of_edge (.inl edge))
        (lowered.lt_of_defined (lowered.operands_defined found operand)) fun assigned path => ?_)
      have held := lowered.operand_normal laid found operand normal place block edge path
      rcases mem_append.mp held with here | before
      · exact absurd (Option.mem_toList.mp here) own
      · exact before
  · intro position join header target args arg found operand exceptional place block edge
    exact holds_definitelyAssigned (Flow.lt_size_of_edge (.inr edge))
      (lowered.lt_of_defined (lowered.operands_defined found operand)) fun _ path =>
        lowered.operand_thrown laid found operand exceptional place block edge path
  · intro a member l read
    rcases mem_append.mp read with direct | named
    · exact lowered.reads_defined member direct
    · obtain ⟨position, inside, found⟩ := mem_iff_getElem.mp member
      cases a with
      | phi target args =>
        obtain ⟨arg, operand, rfl⟩ := mem_map.mp named
        exact lowered.operands_defined (List.getElem?_eq_some_iff.mpr ⟨inside, found⟩) operand
      | _ => cases named

theorem laid_dividing : Laid (.ofCode dividing) := by
  refine ⟨?_, wellPlaced_dividing.2⟩
  have all : ∀ j < 5, ∀ i < j, ((Source.ofCode dividing).at_ i).addr.toNat +
      ((Source.ofCode dividing).at_ i).size ≤ ((Source.ofCode dividing).at_ j).addr.toNat := by
    decide +kernel
  exact fun i j less inside => Dex.Instruction.precedes_iff.mpr (all j inside i less)

/-- The lowered loop that divides has a join, and assigns once. -/
theorem lower_assignsOnce_dividing : ∃ m, dividingMethod.lower emptyFile = .ok m ∧
    (m.actions.filter Action.isPhi).length = 1 ∧ AssignsOnce m := by
  obtain ⟨m, done, joins⟩ := exists_lower_dividing
  exact ⟨m, done, joins, lower_assignsOnce done rfl laid_dividing⟩

end DexLift.Lower
