import DexLift.Proofs.Lower.Entering

/-!
# Lowering preserves runs

A run of the instructions and a run of the lowered method go side by side. Each
instruction is matched by the statement it was lowered to and, where control
leaves its block, by the labels and joins on the way. An instruction that only
moves values between registers is matched by no step at all; such instructions
are few in a row, so that both runs go on together for ever or end together.
-/

namespace DexLift.Lower

open Ir Dalvik List Source Plan

/-! ## Instructions and blocks -/

variable {addr : UInt32} {target index k position : Nat} {h : Dex.Handler}
  {move : Option Dex.Instruction} {head : Head} {file : Dex.File} {plan : Plan} {b : PlannedBlock}
  {throwing : Option Nat} {kept regs out : Registers} {v : Verdict} {actions rest : List Action}
  {op : Operation} {ended : Bool}

def SwitchesFollowed (source : Source) : Prop :=
  ∀ index < source.instructions.size, (source.at_ index).op.flow.switches = true →
    index + 1 < source.instructions.size ∧
      (source.at_ (index + 1)).addr =
        (source.at_ index).addr + UInt32.ofNat (source.at_ index).size

section Source

variable {source : Source} {k index : Nat}

theorem stopOf_of_transfers (own : k < source.starts.length) (after : source.startOf k ≤ index)
    (before : index < source.stopOf k)
    (transfers : ((source.at_ index).op.flow.branches || (source.at_ index).op.flow.switches ||
      !(source.at_ index).op.flow.continues) = true) : source.stopOf k = index + 1 := by
  have inside : index < source.instructions.size := lt_of_lt_of_le before stopOf_le
  by_contra longer
  have later : index + 1 < source.stopOf k := by omega
  refine not_start_between own (by omega) later (source.mem_starts.mpr
    ⟨lt_of_lt_of_le later stopOf_le, .inr (.inr ⟨index, inside, ?_⟩)⟩)
  unfold leadersOf
  dsimp only
  rw [transfers]
  simp

theorem mem_starts_of_jump (inside : index < source.instructions.size)
    (jumps : (source.at_ index).op.flow.branches = true ∧ addr = (source.at_ index).target ∨
      addr ∈ switchTargets (source.at_ index))
    (found : source.indexOf? addr = some target) : target ∈ source.starts := by
  have bound : target < source.instructions.size := by
    obtain ⟨less, -⟩ := Array.findIdx?_eq_some_iff_getElem.mp found
    exact less
  refine source.mem_starts.mpr ⟨bound, .inr (.inr ⟨index, inside, ?_⟩)⟩
  unfold leadersOf
  dsimp only
  rcases jumps with ⟨branches, rfl⟩ | switched
  · simp [branches, indices, found]
  · have listed : target ∈ source.indices (switchTargets (source.at_ index)) :=
      mem_filterMap.mpr ⟨addr, switched, found⟩
    simp [listed]

theorem mem_starts_of_try {t : Dex.Try} (tried : t ∈ source.tries) (member : h ∈ t.handlers)
    (found : source.indexOf? h.addr = some target) : target ∈ source.starts := by
  have bound : target < source.instructions.size := by
    obtain ⟨less, -⟩ := Array.findIdx?_eq_some_iff_getElem.mp found
    exact less
  refine source.mem_starts.mpr ⟨bound, .inr (.inl ?_)⟩
  refine mem_flatMap.mpr ⟨t, tried, mem_filterMap.mpr ⟨h.addr, ?_, found⟩⟩
  exact .tail _ (.tail _ (mem_map_of_mem member))

theorem mem_starts_of_handler (handles : h ∈ handlersAt source addr)
    (found : source.indexOf? h.addr = some target) : target ∈ source.starts := by
  obtain ⟨t, tried, member⟩ := mem_flatMap.mp handles
  exact mem_starts_of_try (mem_of_mem_filter tried) member found

theorem blockOf_of_start (found : source.indexOf? addr = some target)
    (start : target ∈ source.starts) :
    blockOf source source.starts addr < source.starts.length ∧
      source.startOf (blockOf source source.starts addr) = target := by
  obtain ⟨block, bound, begins, position⟩ := startOf_of_mem start
  have same : blockOf source source.starts addr = block := by
    rw [Plan.blockOf, found, Option.getD_some, position, Option.getD_some]
  rw [same]
  exact ⟨bound, begins⟩

theorem continues_of_result (op : Dex.Opcode)
    (kind : (op.isInvoke || op.within 0x24 0x25) = true) : op.flow.continues = true := by
  rw [flow_of_result op kind]
  rfl

theorem instructions_get (inside : index < source.instructions.size) :
    source.instructions[index]? = some (source.at_ index) := by
  simp [at_, inside]

end Source

theorem resultTo_ne_receive {type : Ty} {operands : List Dalvik.Operand} {goal : Nat} :
    resultTo move type head operands ≠ some (.receive goal) := by
  intro result
  unfold resultTo at result
  split at result
  · cases result
  · simp [Option.bind_eq_some_iff] at result

theorem meaning_of_receive {i : Dex.Instruction} {goal : Nat}
    (does : operation? file i move = some (.receive goal)) : meaning i.op = .moveException := by
  cases known : meaning i.op <;>
    simp [operation?, known, Option.bind_eq_some_iff] at does
  case moveException => rfl
  case filledNewArray => exact absurd does.choose_spec.2 resultTo_ne_receive
  case fillArray | switch =>
    split at does
    · obtain ⟨_, -, does⟩ := Option.bind_eq_some_iff.mp does
      cases does
    · cases does
  case invoke kind =>
    simp only [callOf, bind, pure, Option.bind_eq_some_iff] at does
    obtain ⟨ref, -, does⟩ := does
    split at does
    all_goals
      obtain ⟨_, -, does⟩ := Option.bind_eq_some_iff.mp does
      obtain ⟨_, -, does⟩ := Option.bind_eq_some_iff.mp does
      split at does
      · cases does
      · exact absurd does resultTo_ne_receive

/-- The first instruction of a derivation, and the derivation behind it. -/
structure First (file : Dex.File) (plan : Plan) (b : PlannedBlock) (throwing : Option Nat)
    (kept : Registers) (v : Verdict) (index : Nat) (regs out : Registers) (new : Nat)
    (middle : Registers) (op : Operation) (emitted : Option Action) (rest : List Action) :
    Prop where
  does : operation? file (plan.source.at_ index) (moveIn plan b index) = some op
  emits : Emits plan.labelOf
    (plan.labelOf ((plan.source.at_ index).addr + UInt32.ofNat (plan.source.at_ index).size))
    new regs op emitted middle
  below : Below regs new
  reads : ∀ a, emitted = some a → ∀ l ∈ a.uses, v.Whole l
  fixed : ∀ a, emitted = some a → ∀ l, a.defines? = some l → v.resolve l = l ∧ v.Whole l
  receives : meaning (plan.source.at_ index).op = .moveException →
    index = b.start ∧ b.isHandler = true
  keeps : throwing = some index → kept = regs
  more : Runs file plan b throwing kept v (nextIn plan b index) middle rest out

section

variable (runs : Runs file plan b throwing kept v index regs actions out)

include runs

theorem Runs.first
    (inside : index < b.stop) :
    ∃ new middle op emitted rest, actions = emitted.toList.map (Action.substitute v.subst) ++ rest ∧
      First file plan b throwing kept v index regs out new middle op emitted rest := by
  cases runs with
  | finish ended => exact absurd inside (Nat.not_lt.mpr ended)
  | step _ does emits below _ reads fixed receives keeps more =>
    exact ⟨_, _, _, _, _, rfl, does, emits, below, reads, fixed, receives, keeps, more⟩

theorem Runs.over (ended : b.stop ≤ index) : actions = [] ∧ out = regs := by
  cases runs with
  | finish => exact ⟨rfl, rfl⟩
  | step inside => exact absurd inside (Nat.not_lt.mpr ended)

end

variable {V : Type} {file : Dex.File} {ref : MethodRef} {isStatic : Bool} {code : Dex.Code}
  {m : Ir.Method} {s : Shape}

/-- The trap that a handler of a try turns into. -/
def Shape.trapOf (s : Shape) (t : Trapped) (h : Dex.Handler) : Trap :=
  { start := .number t.start, stop := .number t.stop, handler := .number
      (Plan.landing s.plan.blocks (Plan.blockOf s.plan.source s.plan.starts h.addr))
    type := h.type }

namespace Lowered

variable (lowered : Lowered file ref isStatic code m s)

include lowered

theorem runs_of_mem (listed : k ∈ s.layout) (own : k < s.plan.source.starts.length) :
    Runs file s.plan (s.plan.block k) (throwingOf s.plan (s.plan.block k))
      (s.piece k).followed.beforeThrow s.verdict (s.plan.source.startOf k) (s.piece k).into
      (s.piece k).body (s.piece k).followed.out := by
  have runs := (lowered.reached k listed).instructions (lowered.sound.leadsTo k own)
  have start : (s.plan.block k).start = s.plan.source.startOf k := lowered.sound.start k own
  rwa [start] at runs

theorem stop_eq (own : k < s.plan.source.starts.length) :
    (s.plan.block k).stop = s.plan.source.stopOf k := lowered.sound.stop k own

section

variable (listed : k ∈ s.layout) (own : k < s.plan.source.starts.length)

include listed own

theorem next_block
    (runsOn : (s.plan.source.at_ (s.plan.source.stopOf k - 1)).op.flow.continues = true) :
    k + 1 < s.plan.source.starts.length ∧ k + 1 ∈ (s.plan.block k).succs ∧ k + 1 ∈ s.layout := by
  have inside : k + 1 < s.plan.source.starts.length := by
    by_contra last
    have ending := lowered.ends k listed (by omega)
    rw [ending] at runsOn
    cases runsOn
  have succ : k + 1 ∈ (s.plan.block k).succs := by
    rw [block, lowered.sound.succs k own]
    simp [initial, normalSuccs, runsOn, inside]
  exact ⟨inside, succ, lowered.closed k listed (k + 1) (mem_append_left _ succ)⟩

theorem resultMove_eq (before : index < s.plan.source.stopOf k) :
    resultMove s.plan.source index = moveIn s.plan (s.plan.block k) index := by
  rw [resultMove_eq_ite, moveIn, lowered.stop_eq own]
  by_cases pairs : s.plan.source.pairsWithResult index = true
  · have same : index + 1 < s.plan.source.stopOf k := by
      by_contra outside
      have last : s.plan.source.stopOf k = index + 1 := by omega
      have parts := pairs
      simp only [pairsWithResult, Bool.and_eq_true, decide_eq_true_eq] at parts
      obtain ⟨⟨kind, -⟩, moves⟩ := parts
      have runsOn : (s.plan.source.at_ (s.plan.source.stopOf k - 1)).op.flow.continues = true := by
        rw [last, Nat.add_sub_cancel]
        exact continues_of_result _ kind
      obtain ⟨inside, -, reached⟩ := lowered.next_block listed own runsOn
      have start := startOf_succ inside
      obtain ⟨_, _, _, _, _, -, moving⟩ := (lowered.runs_of_mem reached inside).first
        (by rw [lowered.stop_eq inside]; exact startOf_lt_stopOf inside)
      have does := moving.does
      rw [start, last] at does
      simp [operation?, meaning_of_isMoveResult _ moves] at does
    rw [if_pos pairs, if_pos ⟨pairs, same⟩]
  · rw [if_neg pairs, if_neg fun both => pairs both.1]

end

section

variable (placed : WellPlaced s.plan.source) (listed : k ∈ s.layout)
  (own : k < s.plan.source.starts.length) (within : s.Within k position)
  (after : s.plan.source.startOf k ≤ index) (before : index < s.plan.source.stopOf k)
  (throws : (s.plan.source.at_ index).op.flow.throws = true)

include placed listed own within after before throws

theorem filter_covered (ts : List Trapped) (known : ∀ t ∈ ts, t ∈ s.trapped) :
    (ts.flatMap (Trapped.traps s.plan s.done)).filter (m.covered · position) =
      (ts.filter fun t => covers t.source (s.plan.source.at_ index).addr).flatMap fun t =>
        t.source.handlers.map (s.trapOf t) := by
  induction ts with
  | nil => rfl
  | cons t ts ih =>
    have later := ih fun u member => known u (.tail _ member)
    have covered := lowered.covered_iff_covers placed (known t (by simp)) listed own within after
      before
    rw [flatMap_cons, filter_append, later]
    cases covers : covers t.source (s.plan.source.at_ index).addr with
    | false =>
      rw [filter_cons_of_neg (by simp [covers])]
      have none : (t.traps s.plan s.done).filter (m.covered · position) = [] := by
        refine filter_eq_nil_iff.mpr fun trap member => ?_
        obtain ⟨h, -, found⟩ := mem_filterMap.mp member
        split at found
        · cases found
          intro inside
          rw [(covered _ _).mp inside] at covers
          cases covers
        · cases found
      rw [none, nil_append]
    | true =>
      rw [filter_cons_of_pos (by simp [covers]), flatMap_cons]
      refine congrArg (· ++ _) ?_
      have tried : t.source ∈ s.plan.source.tries := by
        have member := mem_map_of_mem (f := Trapped.source) (known t (by simp))
        rw [lowered.sources] at member
        exact mem_of_mem_filter member
      -- Every handler of the try is reached, so that each has its trap.
      have all : t.traps s.plan s.done = t.source.handlers.map (s.trapOf t) := by
        rw [Trapped.traps, ← filterMap_eq_map]
        refine filterMap_congr fun h member => ?_
        have handles : h ∈ handlersAt s.plan.source (s.plan.source.at_ index).addr :=
          mem_flatMap.mpr ⟨t.source, mem_filter.mpr ⟨tried, covers⟩, member⟩
        have reached := lowered.closed k listed _ (mem_append_right _
          (lowered.landing_mem own after before throws handles))
        have entry := (lowered.handlerEntry_eq h).1
        rw [entry, (mem_filter.mp reached).2]
        rfl
      rw [all]
      refine filter_eq_self.mpr fun trap member => ?_
      obtain ⟨h, -, rfl⟩ := mem_map.mp member
      exact (covered _ _).mpr covers

theorem covering_eq :
    (m.traps.filter (m.covered · position)).map (fun t => (t.type, t.handler)) =
      (handlersAt s.plan.source (s.plan.source.at_ index).addr).map fun h => (h.type,
        .number (landing s.plan.blocks (blockOf s.plan.source s.plan.starts h.addr))) := by
  have tries : handlersAt s.plan.source (s.plan.source.at_ index).addr =
      ((s.trapped.map Trapped.source).filter fun t =>
        covers t (s.plan.source.at_ index).addr).flatMap Dex.Try.handlers := by
    rw [lowered.sources, filter_filter, handlersAt]
    refine congrArg (List.flatMap Dex.Try.handlers) (filter_congr fun t member => ?_)
    cases covers : covers t (s.plan.source.at_ index).addr with
    | false => exact covers
    | true =>
      -- The block of the instruction lies inside the try.
      have inside : k ∈ insideOf s.plan s.done t := lowered.mem_insideOf.mpr
        ⟨listed, own, (placed.covers_iff member own after before).mp covers⟩
      have nonempty : (insideOf s.plan s.done t).isEmpty = false := by
        rw [isEmpty_eq_false_iff]
        exact ne_nil_of_mem inside
      rw [nonempty]
      exact covers
  rw [lowered.traps, tries, lowered.filter_covered placed listed own within after before throws
    s.trapped fun _ member => member, filter_map, flatMap_map, map_flatMap,
    map_flatMap]
  simp only [map_map]
  exact flatMap_congr fun t _ => rfl

end

theorem trapFor_eq (placed : WellPlaced s.plan.source) (w : World V) (listed : k ∈ s.layout)
    (own : k < s.plan.source.starts.length) (within : s.Within k position)
    (after : s.plan.source.startOf k ≤ index) (before : index < s.plan.source.stopOf k)
    (throws : (s.plan.source.at_ index).op.flow.throws = true) (x : V) :
    (m.trapFor? w x position).map Trap.handler =
      ((handlersAt s.plan.source (s.plan.source.at_ index).addr).find? fun h =>
        w.catches h.type x).map fun h => Label.number
          (landing s.plan.blocks (blockOf s.plan.source s.plan.starts h.addr)) := by
  have pairs := congrArg (fun found => (found.find? fun p => w.catches p.1 x).map Prod.snd)
    (lowered.covering_eq placed listed own within after before throws)
  simp only [find?_map, Option.map_map, find?_filter, Bool.decide_and, Bool.decide_eq_true] at pairs
  exact pairs

end Lowered

/-! ## Runs side by side -/

theorem runs_on
    (does : operation? file (s.plan.source.at_ index) (moveIn s.plan (s.plan.block k) index) =
      some op)
    (goesOn : continues op = true)
    (ended : nextIn s.plan (s.plan.block k) index = s.plan.source.stopOf k) :
    (s.plan.source.at_ (s.plan.source.stopOf k - 1)).op.flow.continues = true := by
  rw [← ended]
  unfold nextIn
  split
  next moves =>
    -- The last instruction moves the result.
    unfold moveIn at moves
    split at moves
    next pairs =>
      have result := pairs.1
      simp only [pairsWithResult, Bool.and_eq_true] at result
      have means := meaning_of_isMoveResult _ result.2
      rw [show index + 2 - 1 = index + 1 by omega, flow_of_meaning _ (by rw [means]; simp), means]
      rfl
    · cases moves
  · rwa [Nat.add_sub_cancel, ← (flowsAs_of_operation does).continues]

/-- The two runs stand at the same instruction of a block, with the same values. -/
structure MatchesAt (file : Dex.File) (m : Ir.Method) (s : Shape) (k : Nat) (regs : Registers)
    (actions : List Action) (d : Dalvik.State V) (i : Ir.State V) : Prop where
  listed : k ∈ s.layout
  own : k < s.plan.source.starts.length
  after : s.plan.source.startOf k ≤ d.index
  before : d.index < s.plan.source.stopOf k
  runs : Runs file s.plan (s.plan.block k) (throwingOf s.plan (s.plan.block k))
    (s.piece k).followed.beforeThrow s.verdict d.index regs actions (s.piece k).followed.out
  stands : i.Stands m (.number k) false (actions ++ s.after k)
  behind : s.header k < i.position
  within : i.position + actions.length = s.stopAt k
  agrees : Agrees s.verdict regs d.regs i.env
  history : i.history = d.history
  caught : (s.plan.block k).isHandler = true → d.index = s.plan.source.startOf k →
    ∀ x, d.caught = some x → i.caught = some x

/-- The two runs stand at the same instruction. -/
def Matches (file : Dex.File) (m : Ir.Method) (s : Shape) (d : Dalvik.State V) (i : Ir.State V) :
    Prop :=
  ∃ k regs actions, MatchesAt file m s k regs actions d i

/-- The run of the lowered method comes to where the other run stands. -/
def Meets (file : Dex.File) (m : Ir.Method) (s : Shape) (w : World V)
    (status : Status (Ir.State V) V) (d : Dalvik.State V) : Prop :=
  ∃ (t : Ir.State V) (count : Nat), Leads w m count status (.running t) ∧ Matches file m s d t

/-- How far the two runs have come. -/
inductive Corresponds (file : Dex.File) (m : Ir.Method) (s : Shape) :
    Status (Dalvik.State V) V → Status (Ir.State V) V → Prop where
  | running {d : Dalvik.State V} {i : Ir.State V} (matches_ : Matches file m s d i) :
      Corresponds file m s (.running d) (.running i)
  | returned (v : Option V) (history : History V) :
      Corresponds file m s (.returned v history) (.returned v history)
  | uncaught (x : V) (history : History V) :
      Corresponds file m s (.uncaught x history) (.uncaught x history)
  | stuck (status : Status (Ir.State V) V) : Corresponds file m s .stuck status

variable {d : Dalvik.State V} {i t : Ir.State V} {values : RegisterFile V}

namespace Lowered

variable (lowered : Lowered file ref isStatic code m s) (w : World V)

include lowered

theorem enter_matches (listed : k ∈ s.layout) (own : k < s.plan.source.starts.length) {e : Edge}
    (edge : e ∈ (s.plan.block k).preds) (known : Known s.done e)
    (index : d.index = s.plan.source.startOf k) (position : i.position = s.header k)
    (arrived : i.Arrived m (sourceLabel s.plan s.entry e) e.exceptional)
    (agrees : Agrees s.verdict (s.along e) d.regs i.env) (history : i.history = d.history)
    (caught : (s.plan.block k).isHandler = true → ∀ x, d.caught = some x → i.caught = some x) :
    Meets file m s w (.running i) d := by
  obtain ⟨t, count, leads, stands, place, entered, sameCaught, sameHistory⟩ :=
    lowered.enter w listed edge known position arrived agrees
  refine ⟨t, _, leads, k, (s.piece k).into, (s.piece k).body, listed, own,
    Nat.le_of_eq index.symm, ?_, ?_, stands, ?_, ?_, entered, sameHistory.trans history, ?_⟩
  · rw [index]
    exact startOf_lt_stopOf own
  · rw [index]
    exact lowered.runs_of_mem listed own
  · rw [place, Shape.bodyAt]
    omega
  · rw [place]
    rfl
  · intro handles _ x thrown
    rw [sameCaught]
    exact caught handles x thrown

section Normal

variable {j : Nat} (source : j ∈ s.layout) (succ : k ∈ (s.plan.block j).succs)
  (own : k < s.plan.source.starts.length) (begins : d.index = s.plan.source.startOf k)
  (agrees : Agrees s.verdict (s.piece j).followed.out d.regs i.env)
  (history : i.history = d.history)
  (caught : (s.plan.block k).isHandler = true → ∀ x, d.caught = some x → i.caught = some x)

include source succ own begins agrees history caught

theorem enter_normal (position : i.position = s.header k) (arrived : i.Arrived m (.number j) false) :
    Meets file m s w (.running i) d := by
  have inside : j < s.plan.blocks.size := mem_range.mp (mem_of_mem_filter source)
  have edge := (lowered.sound.entered j inside).normal k succ
  have known := known_of_mem source false
  have label := (lowered.sourceLabel_eq known).1
  have along := lowered.along_eq source false
  exact lowered.enter_matches w (lowered.closed j source k (mem_append_left _ succ)) own edge
    known begins position (by rwa [label]) (by rwa [along]) history caught

theorem follow_jump (block : m.opens (.number j) = true → m.blockAt i.position = .number j) :
    Meets file m s w (i.follow w m (.jump (.number k))) d := by
  have reached := lowered.closed j source k (mem_append_left _ succ)
  have follows : i.follow w m (.jump (.number k)) = .running (i.goTo m (s.header k) false) := by
    unfold Ir.State.follow
    dsimp only
    rw [lowered.find_header reached]
  rw [follows]
  exact lowered.enter_normal w source succ own begins (by rwa [Ir.State.goTo_env])
    (by rwa [Ir.State.goTo_history]) (by rwa [Ir.State.goTo_caught]) (i.goTo_position _ _)
    (i.arrived_goTo _ _ block)

end Normal

theorem after_eq (next : k + 1 ∈ s.layout) : ∃ labels : List Label,
    s.after k = labels.map .label ++ s.fromHeader (k + 1) ∧ ∀ l ∈ labels, m.opens l = false := by
  refine ⟨(stopsAt s.trapped k ++ startsAt s.trapped (k + 1)).map .number, ?_, ?_⟩
  · rw [Shape.after, s.tail_eq next, ← append_assoc]
    simp [labelled, Function.comp_def]
  · intro l member
    obtain ⟨number, inside, rfl⟩ := mem_map.mp member
    rcases mem_append.mp inside with edge | edge
    all_goals
      obtain ⟨t, trapped, rfl⟩ := mem_map.mp edge
      exact lowered.not_opens (mem_of_mem_filter trapped) (by simp)

theorem fall_through (listed : k ∈ s.layout) (own : k < s.plan.source.starts.length)
    (runsOn : (s.plan.source.at_ (s.plan.source.stopOf k - 1)).op.flow.continues = true)
    (index : d.index = s.plan.source.stopOf k) (stands : i.Stands m (.number k) ended (s.after k))
    (agrees : Agrees s.verdict (s.piece k).followed.out d.regs i.env)
    (history : i.history = d.history) (none : d.caught = none) :
    Meets file m s w (.running i) d := by
  obtain ⟨inside, succ, next⟩ := lowered.next_block listed own runsOn
  obtain ⟨labels, parts, closed⟩ := lowered.after_eq next
  rw [parts] at stands
  obtain ⟨t, leads, there, env, -, sameHistory⟩ := stands.throughLabels w closed
  have position : t.position = s.header (k + 1) :=
    lowered.tidy.position_unique there.here.get (lowered.from_header next).get
  obtain ⟨last, count, more, matched⟩ := lowered.enter_normal w listed succ inside
    (index.trans (startOf_succ inside).symm) (env ▸ agrees) (sameHistory.trans history)
    (by simp [none]) position there.arrived
  exact ⟨last, _, leads.trans more, matched⟩

theorem nextIn_le (own : k < s.plan.source.starts.length) (before : index < s.plan.source.stopOf k) :
    index < nextIn s.plan (s.plan.block k) index ∧
      nextIn s.plan (s.plan.block k) index ≤ s.plan.source.stopOf k := by
  unfold nextIn
  split
  next moves =>
    unfold moveIn at moves
    split at moves
    next pairs =>
      have inside := pairs.2
      rw [lowered.stop_eq own] at inside
      omega
    · cases moves
  · omega

theorem go_on {middle : Registers} (matched : MatchesAt file m s k regs actions d i)
    (does : operation? file (s.plan.source.at_ d.index) (moveIn s.plan (s.plan.block k) d.index) =
      some op)
    (goesOn : continues op = true)
    (more : Runs file s.plan (s.plan.block k) (throwingOf s.plan (s.plan.block k))
      (s.piece k).followed.beforeThrow s.verdict (nextIn s.plan (s.plan.block k) d.index) middle
      rest (s.piece k).followed.out)
    (stands : t.Stands m (.number k) ended (rest ++ s.after k)) (behind : s.header k < t.position)
    (within : t.position + rest.length = s.stopAt k) (agrees : Agrees s.verdict middle values t.env)
    (ends : ended = true → s.plan.source.stopOf k = d.index + 1) :
    Meets file m s w (.running t) { index := nextIn s.plan (s.plan.block k) d.index, regs := values,
                                    caught := none, history := t.history } := by
  obtain ⟨later, inBlock⟩ := lowered.nextIn_le matched.own matched.before
  rcases Nat.lt_or_eq_of_le inBlock with inside | ended
  · have open_ : ended = false := by grind
    subst open_
    refine ⟨t, 0, .refl _, k, middle, rest, matched.listed, matched.own, ?_, inside, more, stands,
      behind, within, agrees, rfl, ?_⟩
    · exact Nat.le_of_lt (Nat.lt_of_le_of_lt matched.after later)
    · intro _ first
      have := matched.after
      have : nextIn s.plan (s.plan.block k) d.index = s.plan.source.startOf k := first
      omega
  · obtain ⟨rfl, out⟩ := more.over (by rw [lowered.stop_eq matched.own, ended])
    exact lowered.fall_through w matched.listed matched.own (runs_on does goesOn ended) ended stands
      (out ▸ agrees) rfl rfl

theorem succ_of_jump {k index : Nat} (own : k < s.plan.source.starts.length)
    (last : s.plan.source.stopOf k = index + 1) {addr : UInt32}
    (jumps : (s.plan.source.at_ index).op.flow.branches = true ∧
        addr = (s.plan.source.at_ index).target ∨
      (s.plan.source.at_ index).op.flow.switches = true ∧
        addr ∈ switchTargets (s.plan.source.at_ index)) :
    blockOf s.plan.source s.plan.source.starts addr ∈ (s.plan.block k).succs := by
  rw [block, lowered.sound.succs k own]
  simp only [initial, last, Nat.add_sub_cancel, normalSuccs]
  rcases jumps with ⟨branches, rfl⟩ | ⟨-, switched⟩
  · simp [branches]
  · simp only [mem_append, mem_map]
    exact .inl (.inr ⟨addr, switched, rfl⟩)

section Jumps

variable {middle : Registers} (matched : MatchesAt file m s k regs actions d i)
  (does : operation? file (s.plan.source.at_ d.index) (moveIn s.plan (s.plan.block k) d.index) =
    some op)
  (more : Runs file s.plan (s.plan.block k) (throwingOf s.plan (s.plan.block k))
    (s.piece k).followed.beforeThrow s.verdict (nextIn s.plan (s.plan.block k) d.index) middle
    rest (s.piece k).followed.out)

include matched does more

/-- An instruction that transfers control is the last one of its block. -/
theorem last_of_transfers (transfers : transfers op = true) :
    s.plan.source.stopOf k = d.index + 1 ∧
      nextIn s.plan (s.plan.block k) d.index = s.plan.source.stopOf k ∧
      (s.piece k).followed.out = middle := by
  have last : s.plan.source.stopOf k = d.index + 1 := stopOf_of_transfers matched.own matched.after
    matched.before ((flowsAs_of_operation does).transfers ▸ transfers)
  obtain ⟨later, inBlock⟩ := lowered.nextIn_le matched.own matched.before
  obtain ⟨-, out⟩ := more.over (by rw [lowered.stop_eq matched.own]; omega)
  exact ⟨last, by omega, out⟩

variable (block : m.opens (.number k) = true → m.blockAt t.position = .number k)
  (agrees : Agrees s.verdict middle values t.env)

include block agrees

/-- Control goes where an instruction jumps. -/
theorem jump (target : addr ∈ jumps op) {goal : Nat}
    (found : s.plan.source.indexOf? addr = some goal) :
    Meets file m s w (t.follow w m (.jump (s.plan.labelOf addr)))
      { index := goal, regs := values, caught := none, history := t.history } := by
  have inside : d.index < s.plan.source.instructions.size :=
    lt_of_lt_of_le matched.before stopOf_le
  have transfers : transfers op = true := by
    cases op with
    | branch | goto | switch => rfl
    | _ => cases target
  obtain ⟨last, -, out⟩ := lowered.last_of_transfers matched does more transfers
  have jumping := (flowsAs_of_operation does).jumps addr target
  have start := mem_starts_of_jump inside (jumping.imp_right And.right) found
  obtain ⟨own, begins⟩ := blockOf_of_start found start
  have succ := lowered.succ_of_jump matched.own last jumping
  obtain ⟨label, -⟩ := lowered.labelOf_eq addr
  rw [label, lowered.starts]
  exact lowered.follow_jump w matched.listed succ own begins.symm (out ▸ agrees) rfl (by simp) block

theorem jump_behind (followed : SwitchesFollowed s.plan.source) (placed : WellPlaced s.plan.source)
    (chooses : switches op = true) :
    Meets file m s w (t.follow w m (.jump (s.plan.labelOf
        ((s.plan.source.at_ d.index).addr + UInt32.ofNat (s.plan.source.at_ d.index).size))))
      { index := nextIn s.plan (s.plan.block k) d.index, regs := values, caught := none
        history := t.history } := by
  have inside : d.index < s.plan.source.instructions.size :=
    Nat.lt_of_lt_of_le matched.before stopOf_le
  have continues : continues op = true ∧ transfers op = true := by
    cases op with
    | switch => exact ⟨rfl, rfl⟩
    | _ => cases chooses
  obtain ⟨last, ended, out⟩ := lowered.last_of_transfers matched does more continues.2
  obtain ⟨nextInside, addr⟩ :=
    followed d.index inside ((flowsAs_of_operation does).switches ▸ chooses)
  obtain ⟨own, succ, reached⟩ := lowered.next_block matched.listed matched.own
    (runs_on does continues.1 ended)
  have start := startOf_succ own
  rw [last] at start
  -- The address behind the switch is that of the first instruction of the next block.
  have same : blockOf s.plan.source s.plan.source.starts
      ((s.plan.source.at_ d.index).addr + UInt32.ofNat (s.plan.source.at_ d.index).size) =
      k + 1 := by
    have mem := startOf_mem own
    rw [start] at mem
    have found := placed.indexOf_addr nextInside
    rw [← addr]
    obtain ⟨bound, begins⟩ := blockOf_of_start found mem
    rcases Nat.lt_trichotomy (blockOf s.plan.source s.plan.source.starts
      (s.plan.source.at_ (d.index + 1)).addr) (k + 1) with less | equal | greater
    · have := startOf_lt less own
      omega
    · exact equal
    · have := startOf_lt greater bound
      omega
  obtain ⟨label, -⟩ := lowered.labelOf_eq
    ((s.plan.source.at_ d.index).addr + UInt32.ofNat (s.plan.source.at_ d.index).size)
  rw [lowered.starts, same] at label
  rw [label]
  exact lowered.follow_jump w matched.listed succ own (by rwa [start, ← last])
    (out ▸ agrees) rfl (by simp) block

end Jumps

theorem enter_handler {h : Nat} (listed : k ∈ s.layout) (own : h < s.plan.source.starts.length)
    (thrown : landing s.plan.blocks h ∈ (s.plan.block k).exSuccs)
    (index : d.index = s.plan.source.startOf h)
    (position : i.position = s.header (landing s.plan.blocks h))
    (arrived : i.Arrived m (.number k) true)
    (agrees : Agrees s.verdict (s.piece k).followed.beforeThrow d.regs i.env)
    (history : i.history = d.history) (caught : ∀ x, d.caught = some x → i.caught = some x) :
    Meets file m s w (.running i) d := by
  have inside : k < s.plan.blocks.size := mem_range.mp (mem_of_mem_filter listed)
  have edge := ((lowered.sound.entered k inside).thrown _ thrown).1
  have known := known_of_mem listed true
  have label := (lowered.sourceLabel_eq known).1
  have along := lowered.along_eq listed true
  have landed := lowered.closed k listed _ (mem_append_right _ thrown)
  rcases landing_cases s.plan.blocks h with ⟨same, -⟩ | ⟨-, leads, -⟩
  · rw [same] at edge landed position
    exact lowered.enter_matches w landed own edge known index position (by rwa [label])
      (by rwa [along]) history fun _ => caught
  · obtain ⟨t, count, walk, stands, -, entered, -, sameHistory⟩ := lowered.enter w landed edge known
      position (by rwa [label]) (by rwa [along])
    -- The block in front of the handler only jumps there.
    rcases lowered.body_cases landed with ⟨-, none⟩ | ⟨other, -, leadsOther, body, succs⟩
    · rw [block, leads] at none
      cases none
    · have same : other = h := Option.some.inj (leadsOther.symm.trans leads)
      subst same
      have out := ((lowered.reached _ landed).front other leadsOther).1
      rw [body] at stands
      have step := Ir.State.step_plain w stands.here.get rfl rfl
        (show t.perform w (.goto (.number other)) = some (t.history, t.env, .jump (.number other))
          from rfl)
      have notHandler := lowered.sound.split _ (mem_range.mp (mem_of_mem_filter landed))
        other leads
      obtain ⟨u, more, jumps, there⟩ := lowered.follow_jump w landed (by rw [succs]; simp) own index
        (i := { t with caught := none }) (out ▸ entered) (sameHistory.trans history)
        (by intro handles; rw [block, notHandler] at handles; cases handles)
        (stands.blockAt (pass_plain rfl))
      exact ⟨u, _, (walk.trans (Leads.one step)).trans jumps, there⟩

/-- The instruction of a block that throws to a handler is the one the registers were kept before:
the last of its block that can throw. -/
theorem throwingOf_eq (own : k < s.plan.source.starts.length)
    (after : s.plan.source.startOf k ≤ index) (before : index < s.plan.source.stopOf k)
    (fails : (s.plan.source.at_ index).op.flow.throws = true)
    (handles : h ∈ handlersAt s.plan.source (s.plan.source.at_ index).addr) :
    throwingOf s.plan (s.plan.block k) = some index := by
  have thrown := lowered.landing_mem own after before fails handles
  have tried : s.plan.source.inTry (s.plan.source.at_ index).addr = true := by
    obtain ⟨try_, member, -⟩ := mem_flatMap.mp handles
    obtain ⟨inTries, covers⟩ := mem_filter.mp member
    exact any_eq_true.mpr ⟨try_, inTries, covers⟩
  have start : (s.plan.block k).start = s.plan.source.startOf k := lowered.sound.start k own
  rw [throwingOf, start, lowered.stop_eq own,
    if_neg (by rw [List.isEmpty_iff]; exact ne_nil_of_mem thrown)]
  exact throwingIn_eq own after before fails tried

/-- What an instruction throws goes to the same handler, or to none. -/
theorem raise (placed : WellPlaced s.plan.source) {k : Nat} {regs : Registers}
    {actions : List Action} {d : Dalvik.State V} {i : Ir.State V}
    (matched : MatchesAt file m s k regs actions d i)
    (fails : (s.plan.source.at_ d.index).op.flow.throws = true)
    (keeps : throwingOf s.plan (s.plan.block k) = some d.index →
      (s.piece k).followed.beforeThrow = regs)
    {t : Ir.State V} (within : s.Within k t.position)
    (block : m.opens (.number k) = true → m.blockAt t.position = .number k)
    (agrees : Agrees s.verdict regs d.regs t.env) (x : V) :
    ∃ count status, Leads w m count (t.follow w m (.raise x)) status ∧
      Corresponds file m s
        (match (handlersAt s.plan.source (s.plan.source.at_ d.index).addr).find? fun h =>
            w.catches h.type x with
          | some h =>
            { d with caught := some x, history := t.history }.goTo s.plan.source h.addr
          | none => .uncaught x t.history) status := by
  have trap := lowered.trapFor_eq placed w matched.listed matched.own within matched.after
    matched.before fails x
  cases found : (handlersAt s.plan.source (s.plan.source.at_ d.index).addr).find? fun h =>
      w.catches h.type x with
  | none =>
    rw [found, Option.map_none, Option.map_eq_none_iff] at trap
    refine ⟨0, .uncaught x t.history, ?_, .uncaught x t.history⟩
    simp only [Ir.State.follow, trap]
    exact .refl _
  | some h =>
    rw [found] at trap
    obtain ⟨taken, first, handler⟩ := Option.map_eq_some_iff.mp trap
    have handles := mem_of_find?_eq_some found
    have thrown := lowered.landing_mem matched.own matched.after matched.before fails handles
    have landed := lowered.closed k matched.listed _ (mem_append_right _ thrown)
    have follows : t.follow w m (.raise x) = .running ({ t with caught := some x }.goTo m
        (s.header (landing s.plan.blocks (blockOf s.plan.source s.plan.starts h.addr))) true) := by
      simp only [Ir.State.follow, first, handler, lowered.find_header landed]
    dsimp only
    cases index : s.plan.source.indexOf? h.addr with
    | none =>
      refine ⟨0, _, .refl _, ?_⟩
      simp only [Dalvik.State.goTo_eq, index, Option.elim]
      exact .stuck _
    | some goal =>
      obtain ⟨own, begins⟩ := blockOf_of_start index (mem_starts_of_handler handles index)
      have kept : (s.piece k).followed.beforeThrow = regs :=
        keeps (lowered.throwingOf_eq matched.own matched.after matched.before fails handles)
      rw [lowered.starts] at thrown follows
      obtain ⟨u, count, leads, there⟩ := lowered.enter_handler w matched.listed own thrown
        (d := { d with index := goal, caught := some x, history := t.history }) begins.symm
        (Ir.State.goTo_position _ _ _) (Ir.State.arrived_goTo { t with caught := some x } _ _ block)
        (by rwa [kept, Ir.State.goTo_env]) (Ir.State.goTo_history _ _ _)
        (by rw [Ir.State.goTo_caught]; exact fun _ same => same)
      refine ⟨count, .running u, by rwa [follows], ?_⟩
      simp only [Dalvik.State.goTo_eq, index, Option.elim]
      exact .running there

theorem step_matches (placed : WellPlaced s.plan.source) (followed : SwitchesFollowed s.plan.source)
    (matches_ : Matches file m s d i) :
    ∃ count status, Leads w m count (.running i) status ∧
      Corresponds file m s (d.step w file s.plan.source) status ∧
      (count = 0 → ∃ e, d.step w file s.plan.source = .running e ∧ d.index < e.index) := by
  obtain ⟨k, regs, actions, matched⟩ := matches_
  have inside : d.index < s.plan.source.instructions.size :=
    lt_of_lt_of_le matched.before stopOf_le
  obtain ⟨new, middle, op, emitted, rest, split, first⟩ := matched.runs.first
    (by rw [lowered.stop_eq matched.own]; exact matched.before)
  have moving := lowered.resultMove_eq matched.listed matched.own matched.before
  have later := (lowered.nextIn_le matched.own matched.before).1
  have flows := flowsAs_of_operation first.does
  have next : (if (resultMove s.plan.source d.index).isSome then d.index + 2 else d.index + 1) =
      nextIn s.plan (s.plan.block k) d.index := by rw [moving]; rfl
  have begins : ∀ result, d.perform w op = result → d.step w file s.plan.source =
      match result with
      | none => .stuck
      | some (history, values, .next) => .running
        { index := nextIn s.plan (s.plan.block k) d.index, regs := values, caught := none, history }
      | some (history, values, .jump addr) =>
        { d with regs := values, caught := none, history }.goTo s.plan.source addr
      | some (history, _, .finish v) => .returned v history
      | some (history, _, .raise x) =>
        match (handlersAt s.plan.source (s.plan.source.at_ d.index).addr).find? fun h =>
            w.catches h.type x with
        | some h => { d with caught := some x, history }.goTo s.plan.source h.addr
        | none => .uncaught x history := by
    intro result performs
    unfold Dalvik.State.step
    rw [instructions_get inside]
    dsimp only
    rw [next, moving, first.does, Option.bind_some, performs]
    match result with
    | none => rfl
    | some (_, _, .next) => rfl
    | some (_, _, .jump _) => rfl
    | some (_, _, .finish _) => rfl
    | some (_, _, .raise _) => rfl
  cases performs : d.perform w op with
  | none =>
    refine ⟨1, _, .one rfl, ?_, by simp⟩
    rw [begins _ performs]
    exact .stuck _
  | some result =>
    obtain ⟨history, values, move⟩ := result
    have step := begins _ performs
    cases emitted with
    | none =>
      obtain ⟨stays, rfl, rfl, agrees⟩ := first.emits.silent (s := i) matched.agrees performs
      have goesOn : continues op = true := by
        cases op <;> first | rfl | cases stays
      rw [show actions = rest from split] at matched
      obtain ⟨u, count, leads, there⟩ := lowered.go_on w matched first.does goesOn first.more
        matched.stands matched.behind matched.within agrees (by simp)
      rw [matched.history] at there
      exact ⟨count, .running u, leads, step ▸ .running there, fun _ => ⟨_, step, later⟩⟩
    | some a =>
      have plain : (a.substitute s.verdict.subst).label? = none := by
        rw [label?_substitute]
        exact first.emits.not_label
      have single : (a.substitute s.verdict.subst).isPhi = false := by
        rw [isPhi_substitute]
        exact first.emits.not_phi
      have caught : (∃ goal, op = .receive goal) → ∀ x, d.caught = some x → i.caught = some x := by
        rintro ⟨goal, rfl⟩
        obtain ⟨start, handles⟩ := first.receives (meaning_of_receive first.does)
        exact matched.caught handles (start.trans (lowered.sound.start k matched.own))
      obtain ⟨env, moved, performed, mirrors⟩ := first.emits.mirrors lowered.lawful first.below
        matched.agrees matched.history (first.reads a rfl)
        (fun l defined => (first.fixed a rfl l defined).1) caught performs
      have parts : actions = a.substitute s.verdict.subst :: rest := split
      rw [parts] at matched
      have stands : i.Stands m (.number k) false
          (a.substitute s.verdict.subst :: (rest ++ s.after k)) := matched.stands
      have taken := Ir.State.step_plain w stands.here.get plain single performed
      have block := stands.blockAt (pass_plain plain)
      have within := matched.within
      rw [length_cons] at within
      let t : Ir.State V := { i with history, env, caught := none }
      rw [step]
      cases mirrors.moves with
      | next goesOn =>
        have on : (t.goTo m (i.position + 1) false).Stands m (.number k)
            (a.substitute s.verdict.subst).endsBlock (rest ++ s.after k) :=
          stands.goOn (pass_plain plain) rfl
        obtain ⟨u, count, leads, there⟩ := lowered.go_on w matched first.does goesOn first.more on
          (by rw [Ir.State.goTo_position]; exact Nat.lt_succ_of_lt matched.behind)
          (by rw [Ir.State.goTo_position]; omega)
          (by rw [Ir.State.goTo_env]; exact mirrors.agrees (by simp))
          (by
            intro ends
            rw [first.emits.endsBlock, flows.transfers] at ends
            exact stopOf_of_transfers matched.own matched.after matched.before ends)
        rw [Ir.State.goTo_history] at there
        refine ⟨1 + count, .running u, (Leads.one taken).trans leads, .running there, by omega⟩
      | behind chooses =>
        obtain ⟨u, count, leads, there⟩ := lowered.jump_behind w matched first.does first.more
          (t := t) block (mirrors.agrees (by simp)) followed placed chooses
        exact ⟨1 + count, .running u, (Leads.one taken).trans leads, .running there, by omega⟩
      | @jump addr target =>
        simp only [Dalvik.State.goTo_eq]
        cases found : s.plan.source.indexOf? addr with
        | none => exact ⟨1, _, .one rfl, .stuck _, by simp⟩
        | some goal =>
          obtain ⟨u, count, leads, there⟩ := lowered.jump w matched first.does first.more (t := t)
            block (mirrors.agrees (by simp)) target found
          exact ⟨1 + count, .running u, (Leads.one taken).trans leads, .running there, by omega⟩
      | @raise x fails =>
        obtain ⟨count, status, leads, there⟩ := lowered.raise w placed matched
          (flows.throws ▸ fails) first.keeps (t := t) ⟨matched.behind, by show i.position < _; omega⟩
          block mirrors.stays x
        exact ⟨1 + count, status, (Leads.one taken).trans leads, there, by omega⟩
      | finish => exact ⟨1, _, .one taken, .returned _ _, by simp⟩

end Lowered

/-! ## The entry -/

variable {env : Env V} {caught : Option V} {history : History V}

section Entry

variable {v : Verdict} {w : World V} {source : Label} {rest : List Action}

theorem evaluate_this :
    evaluate w env caught history (.leaf .this) = some (history, .ok w.receiver) := by
  rw [Expr.leaf, evaluate]

theorem evaluate_param (index : Nat) :
    evaluate w env caught history (.leaf (.param index)) = some (history, .ok (w.param index)) := by
  rw [Expr.leaf, evaluate]

theorem name_argument (lawful : v.Lawful) (reg : Nat) {new : Nat} (inside : reg < regs.size)
    (below : Below regs new) (fixed : v.resolve new = new) {x : V} (wide : Bool)
    (stands : t.Stands m source false (.identity new (.leaf head) :: rest))
    (value : evaluate w t.env t.caught t.history (.leaf head) = some (t.history, .ok x))
    (agrees : Agrees v regs values t.env) :
    ∃ u : Ir.State V, Leads w m 1 (.running t) (.running u) ∧ u.Stands m source false rest ∧
      Agrees v (regs.setIfInBounds reg (some new)) (values.write reg x wide) u.env ∧
      u.history = t.history := by
  have performs : t.perform w (.identity new (.leaf head)) =
      some (t.history, t.env.set new x, .next) := withValue_of_ok value
  have step := Ir.State.step_plain w stands.here.get rfl rfl performs
  refine ⟨_, Leads.one step, stands.goOn (pass_plain rfl) rfl, ?_, Ir.State.goTo_history _ _ _⟩
  rw [Ir.State.goTo_env]
  exact agrees.define lawful below fixed (puts_set inside (some new)) x wide

theorem name_arguments (lawful : v.Lawful) {params : List (Text × Nat)} {reg new : Nat}
    (names : Names params reg regs new actions out) (below : Below regs new)
    (fixed : ∀ a ∈ actions, ∀ l, a.defines? = some l → v.resolve l = l)
    (stands : t.Stands m source false (actions ++ rest)) (agrees : Agrees v regs values t.env) :
    ∃ (u : Ir.State V) (count : Nat), Leads w m count (.running t) (.running u) ∧
      u.Stands m source false rest ∧ Agrees v out (placeArguments w params reg values) u.env ∧
      u.history = t.history := by
  induction names generalizing values t with
  | nil => exact ⟨t, 0, .refl _, stands, agrees, rfl⟩
  | @cons desc index reg new params regs out actions inside more ih =>
    obtain ⟨u, leads, there, agreesNext, history⟩ := name_argument lawful reg inside below
      (fixed _ mem_cons_self new rfl) (isPair (Ty.ofDesc desc).kind) stands
      (evaluate_param index) agrees
    obtain ⟨last, count, walk, ending, agreesLast, historyLast⟩ := ih
      (below.set reg) (fun a member => fixed a (.tail _ member)) there agreesNext
    exact ⟨last, 1 + count, leads.trans walk, ending, agreesLast, historyLast.trans history⟩

end Entry

namespace Lowered

variable (lowered : Lowered file ref isStatic code m s) (w : World V)

include lowered

theorem name_entry {source : Label} (stands : t.Stands m source false (s.opening ++ rest)) :
    ∃ (u : Ir.State V) (count : Nat), Leads w m count (.running t) (.running u) ∧
      u.Stands m source false rest ∧
      Agrees s.verdict s.entry.out (initialRegisters w ref isStatic code) u.env ∧
      u.history = t.history := by
  have fixed : ∀ a ∈ s.opening, ∀ l, a.defines? = some l → s.verdict.resolve l = l :=
    fun a member l defined => (lowered.opening a member l defined).1
  have nothing : ∀ r, (Array.replicate code.registers.toNat (none : Option LocalId)).getD r none =
      none := by
    intro r
    by_cases inside : r < code.registers.toNat
    · simp [inside]
    · simp [inside]
  have agrees : ∀ env : Env V, Agrees s.verdict (Array.replicate code.registers.toNat none)
      (fun _ => none) env := by
    intro env r l held
    rw [nothing] at held
    cases held
  have below : Below (Array.replicate code.registers.toNat none) 0 := by
    intro r l held
    rw [nothing] at held
    cases held
  have enters := lowered.enters
  generalize s.opening = opening at enters stands fixed
  cases enters with
  | static here names =>
    subst here
    exact name_arguments lowered.lawful names below fixed stands (agrees t.env)
  | receiver here names inside =>
    subst here
    obtain ⟨u, leads, there, agreesNext, history⟩ := name_argument lowered.lawful
      (code.registers.toNat - (ref.proto.paramSlots + 1)) (by simp; omega) below
      (fixed _ mem_cons_self 0 rfl) false stands evaluate_this (agrees t.env)
    obtain ⟨last, count, walk, ending, agreesLast, historyLast⟩ := name_arguments lowered.lawful
      names (below.set _) (fun a member => fixed a (.tail _ member)) there agreesNext
    exact ⟨last, 1 + count, leads.trans walk, ending, agreesLast, historyLast.trans history⟩

theorem start_matches : ∃ (count : Nat) (i : Ir.State V), m.run w count = .running i ∧
    Matches file m s { index := 0, regs := initialRegisters w ref isStatic code, caught := none
                       history := [] } i := by
  have body : m.From 0 (.label (.number s.plan.blocks.size) ::
      (s.opening ++ s.layout.flatMap s.segment)) := lowered.actions
  obtain ⟨step, stands⟩ := Ir.State.stands_of_header w (s := (Ir.State.start : Ir.State V)) body
  obtain ⟨t, count, leads, there, agrees, history⟩ := lowered.name_entry w stands
  -- Behind the entry stands the first block.
  have blocks : s.layout.flatMap s.segment =
      ((startsAt s.trapped 0).map Label.number).map Action.label ++ s.fromHeader 0 := by
    have first := lowered.from_base lowered.first
    rw [s.base_zero] at first
    have same := body.next.skip
    rw [Nat.add_comm] at same
    rw [← show _ = s.layout.flatMap s.segment from same, first]
    simp [labelled, Function.comp_def]
  rw [blocks] at there
  have closed : ∀ l ∈ (startsAt s.trapped 0).map Label.number, m.opens l = false := by
    intro l member
    obtain ⟨number, start, rfl⟩ := mem_map.mp member
    obtain ⟨trapped, inside, rfl⟩ := mem_map.mp start
    exact lowered.not_opens (mem_of_mem_filter inside) (by simp)
  obtain ⟨u, walk, behind, env, -, sameHistory⟩ := there.throughLabels w closed
  have position : u.position = s.header 0 :=
    lowered.tidy.position_unique behind.here.get (lowered.from_header lowered.first).get
  have known : Known s.done ⟨none, false⟩ := by
    intro source same
    cases same
  have zero : s.plan.source.startOf 0 = 0 := by
    have size : 0 < s.plan.source.instructions.size := by
      have := startOf_lt_stopOf lowered.nonempty
      exact lt_of_lt_of_le (Nat.zero_lt_of_lt this) stopOf_le
    rw [startOf, getD_eq_getElem?_getD, s.plan.source.starts_head size]
    rfl
  obtain ⟨i, more, enters, matched⟩ := lowered.enter_matches w lowered.first lowered.nonempty
    lowered.sound.entry known
    (d := { index := 0, regs := initialRegisters w ref isStatic code, caught := none
            history := [] })
    zero.symm position (by rw [(lowered.sourceLabel_eq known).1]; exact behind.arrived)
    (by rwa [env])
    (by rw [sameHistory, history, Ir.State.goTo_history]; rfl) (by simp)
  exact ⟨_, i, (((Leads.one step).trans leads).trans (walk.trans enters)).run
    (rfl : m.run w 0 = .running .start), matched⟩

end Lowered

end DexLift.Lower
