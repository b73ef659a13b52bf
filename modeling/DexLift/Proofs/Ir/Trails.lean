import DexLift.Proofs.Ir.Assigned
import DexLift.Proofs.Ir.Performing
import DexLift.Proofs.Ir.Walking

/-!
# Paths with what joins see

A trail is a path through the statement graph that remembers what a run
remembers: the locals assigned so far, the way into the present block, and the
locals assigned on that way. A method is in static single assignment when no
local is defined twice, every path has assigned what a statement reads, and every
trail has assigned what a join picks before it entered the block. The runs of such
a method follow trails.

A position knows the locals that every path to it has assigned, and the position
in a block carries those that every trail by one way in had assigned before it
entered. What is known behind an edge was known in front of it or is defined
there; so two runs that agree on what is known go on agreeing.
-/

namespace DexLift.Ir

open List State

namespace Method

variable {position : Nat} {a : Action}

variable {m : Method}

/-! ## Edges -/

theorem Tidy.mem_succsOf (tidy : m.Tidy) {next : Nat} :
    next ∈ (Flow.ofMethod m).succsOf position ↔
      ∃ a, m.actions[position]? = some a ∧
        ((a.fallsThrough = true ∧ position + 1 < m.actions.length ∧ next = position + 1) ∨
          ∃ l ∈ a.targets, m.find? l = some next) := by
  rw [Flow.succsOf_ofMethod, length_actions]
  cases m.actions[position]? with
  | none => simp
  | some a =>
    simp only [Option.map_some, Option.getD_some, mem_succsAt, tidy.positionOf?_eq_find?,
      Option.some.injEq, exists_eq_left']

theorem Tidy.mem_exSuccsOf (tidy : m.Tidy) {next : Nat} :
    next ∈ (Flow.ofMethod m).exSuccsOf position ↔
      ∃ a, m.actions[position]? = some a ∧ a.canThrow = true ∧
        ∃ t ∈ m.traps, m.covered t position = true ∧ m.find? t.handler = some next := by
  rw [Flow.exSuccsOf_ofMethod]
  cases m.actions[position]? with
  | none => simp
  | some a =>
    simp only [Option.map_some, Option.getD_some, mem_exSuccsAt, mem_coversAt,
      tidy.positionOf?_eq_find?, Option.some.injEq, exists_eq_left']
    refine and_congr_right fun _ => ?_
    constructor
    · rintro ⟨i, ⟨t, start, stop, found, isStart, isStop, low, high⟩, other, same, goal⟩
      cases found.symm.trans same
      refine ⟨t, mem_of_getElem? found, ?_, goal⟩
      simp only [covered, isStart, isStop, low, high, decide_true, Bool.and_self]
    · rintro ⟨t, member, inside, goal⟩
      obtain ⟨i, found⟩ := mem_iff_getElem?.mp member
      unfold covered at inside
      split at inside
      next start stop isStart isStop =>
        simp only [Bool.and_eq_true, decide_eq_true_eq] at inside
        exact ⟨i, ⟨t, start, stop, found, isStart, isStop, inside.1, inside.2⟩, t, found, goal⟩
      · cases inside

/-! ## Trails -/

/-- Whether a block begins at a position. -/
def enters (m : Method) (position : Nat) : Bool :=
  match m.actions[position]? with
  | some (.label l) => m.opens l
  | _ => false

theorem enters_of_plain (found : m.actions[position]? = some a) (plain : a.label? = none) :
    m.enters position = false := by
  unfold enters
  rw [found]
  cases a with
  | label => cases plain
  | _ => rfl

def definedAt (m : Method) (position : Nat) : List LocalId :=
  ((Flow.ofMethod m).action position).defines?.toList

theorem definedAt_eq (found : m.actions[position]? = some a) :
    m.definedAt position = a.defines?.toList := by
  rw [definedAt, Flow.action_ofMethod, found, Option.getD_some]

/-- A path from the entry to a position: the locals it has assigned, the way into the present block,
and the locals assigned on that way. -/
inductive Trail (m : Method) : Nat → List LocalId → Label × Bool → List LocalId → Prop where
  | start : Trail m 0 [] (.nowhere, false) []
  | normal {position next : Nat} {assigned entered : List LocalId} {origin : Label × Bool}
      (trail : Trail m position assigned origin entered)
      (edge : next ∈ (Flow.ofMethod m).succsOf position) :
      Trail m next (m.definedAt position ++ assigned)
        (if m.enters next then (m.blockAt position, false) else origin)
        (if m.enters next then m.definedAt position ++ assigned else entered)
  | thrown {position next : Nat} {assigned entered : List LocalId} {origin : Label × Bool}
      (trail : Trail m position assigned origin entered)
      (edge : next ∈ (Flow.ofMethod m).exSuccsOf position) :
      Trail m next assigned (if m.enters next then (m.blockAt position, true) else origin)
        (if m.enters next then assigned else entered)

section Trail

variable {position next : Nat} {assigned entered : List LocalId} {origin : Label × Bool}

theorem Trail.path (trail : m.Trail position assigned origin entered) :
    (Flow.ofMethod m).Path position assigned := by
  induction trail with
  | start => exact .start
  | normal _ edge ih => exact ih.normal edge
  | thrown _ edge ih => exact ih.thrown edge

theorem exists_trail (path : (Flow.ofMethod m).Path position assigned) :
    ∃ origin entered, m.Trail position assigned origin entered := by
  induction path with
  | start => exact ⟨_, _, .start⟩
  | normal _ edge ih =>
    obtain ⟨origin, entered, trail⟩ := ih
    exact ⟨_, _, trail.normal edge⟩
  | thrown _ edge ih =>
    obtain ⟨origin, entered, trail⟩ := ih
    exact ⟨_, _, trail.thrown edge⟩

theorem assigns_iff {l : LocalId} : (Flow.ofMethod m).Assigns position l ↔
    ∀ assigned origin entered, m.Trail position assigned origin entered → l ∈ assigned := by
  constructor
  · exact fun always assigned _ _ trail => always assigned trail.path
  · intro always assigned path
    obtain ⟨origin, entered, trail⟩ := exists_trail path
    exact always assigned origin entered trail

/-- An edge from one position to another, by going on or by an exception. -/
def Edge (m : Method) (position next : Nat) (exceptional : Bool) : Prop :=
  next ∈ if exceptional then (Flow.ofMethod m).exSuccsOf position
    else (Flow.ofMethod m).succsOf position

theorem Edge.trail {exceptional : Bool} (edge : m.Edge position next exceptional)
    (trail : m.Trail position assigned origin entered) :
    ∃ more, (∀ l, l ∈ more ↔ l ∈ assigned ∨ exceptional = false ∧ l ∈ m.definedAt position) ∧
      m.Trail next more (if m.enters next then (m.blockAt position, exceptional) else origin)
        (if m.enters next then more else entered) := by
  cases exceptional with
  | true => exact ⟨assigned, by simp, trail.thrown edge⟩
  | false => exact ⟨_, by simp [or_comm], trail.normal edge⟩

end Trail

/-- The operand of a join for a way into its block. -/
def picked (origin : Label × Bool) (args : List PhiArg) : Option PhiArg :=
  args.find? fun a => a.pred == origin.1 && a.exceptional == origin.2

structure SingleAssignment (m : Method) : Prop where
  /-- No local is defined at two positions. -/
  once : ∀ (position other : Nat) (a b : Action) (l : LocalId), m.actions[position]? = some a →
    m.actions[other]? = some b → a.defines? = some l → b.defines? = some l → position = other
  /-- Every path to a statement has assigned what it reads. -/
  reads : ∀ (position : Nat) (a : Action) (l : LocalId), m.actions[position]? = some a →
    l ∈ a.uses → (Flow.ofMethod m).Assigns position l
  /-- Every trail to a join has assigned what the join picks where it left for the block. -/
  joins : ∀ (position : Nat) (target : LocalId) (args : List PhiArg) (arg : PhiArg)
    (assigned entered : List LocalId) (origin : Label × Bool),
    m.actions[position]? = some (.phi target args) → m.Trail position assigned origin entered →
    picked origin args = some arg → arg.value ∈ entered

/-- A method whose expressions are well formed: only nodes that evaluate their operands have some,
naming what is there at an entry does not throw, and a caught exception is named and not
computed with. -/
structure Proper (m : Method) : Prop where
  operands : ∀ a ∈ m.actions, a.Proper
  names : ∀ l e, .identity l e ∈ m.actions → e.canThrow = false
  received : ∀ l e, .assign l e ∈ m.actions → e.receives = false

end Method

/-! ## Runs follow trails -/

section Runs

variable {a : Action} {target : LocalId} {args : List PhiArg}

variable {V : Type} {w : World V} {m : Method}

section

variable (s : State V) (position : Nat) (exceptional : Bool)

theorem State.goTo_eq :
    s.goTo m position exceptional =
      if m.enters position then
        { s with position, origin := (m.blockAt s.position, exceptional), entering := s.env }
      else { s with position } := by
  unfold goTo Method.enters
  cases m.actions[position]? with
  | none => rfl
  | some a => cases a <;> rfl

theorem State.goTo_origin :
    (s.goTo m position exceptional).origin =
      if m.enters position then (m.blockAt s.position, exceptional) else s.origin := by
  rw [goTo_eq]
  split <;> rfl

theorem State.goTo_entering :
    (s.goTo m position exceptional).entering =
      if m.enters position then s.env else s.entering := by
  rw [goTo_eq]
  split <;> rfl

end

variable {env after : Env V} {caught : Option V} {history last : History V}

theorem Method.Proper.canThrow_of_raise (proper : m.Proper) (member : a ∈ m.actions) {x : V}
    (done : a.carryOut w env caught history = some (last, after, .raise x)) :
    a.canThrow = true ∧ after = env := by
  have operand : (∃ e ∈ a.inputs, e.canThrow = true) → a.canThrow = true := by
    rintro ⟨e, listed, throws⟩
    cases a with
    | label | phi | nop | goto => cases listed
    | identity l value =>
      rw [mem_singleton.mp listed, proper.names l value member] at throws
      cases throws
    | store => rfl
    | _ =>
      rw [Action.canThrow_eq rfl, Bool.or_eq_true, any_eq_true]
      exact .inr ⟨e, listed, throws⟩
  rcases Action.carryOut_cases done with ⟨y, failed, rfl, -⟩ | ⟨middle, vs, v, values, concluded, rfl⟩
  · obtain ⟨e, listed, before, failed⟩ := exists_error_of_evaluateAll failed
    exact ⟨operand ⟨e, listed,
      ((proper.operands a member).inputs_proper e listed).canThrow_of_error failed⟩, rfl⟩
  · have spec := a.conclude_spec (w := w) middle (length_of_evaluateAll values)
    rw [concluded] at spec
    obtain ⟨demands, rfl⟩ := spec
    refine ⟨?_, by cases a.defines? <;> rfl⟩
    cases a with
    | store | fillArray | throw | monitorEnter | monitorExit => rfl
    | _ => cases demands

theorem Action.carryOut_next (single : a.isPhi = false)
    (done : a.carryOut w env caught history = some (last, after, .next)) :
    a.fallsThrough = true ∧ (∀ l, a.defines? ≠ some l → after l = env l) ∧
      ∀ l, a.defines? = some l → (after l).isSome := by
  rcases carryOut_cases done with ⟨_, -, -, contrary⟩ | ⟨middle, vs, v, values, concluded, rfl⟩
  · cases contrary
  have spec := a.conclude_spec (w := w) middle (length_of_evaluateAll values)
  rw [concluded] at spec
  refine ⟨spec.1, fun l other => Env.define_of_ne other v, fun l defined => ?_⟩
  obtain ⟨x, rfl⟩ := Option.isSome_iff_exists.mp (spec.2 l defined single)
  rw [defined]
  simp [Env.define, Env.set]

theorem Action.carryOut_jump {l : Label}
    (done : a.carryOut w env caught history = some (last, after, .jump l)) :
    l ∈ a.targets ∧ after = env ∧ a.defines? = none := by
  rcases carryOut_cases done with ⟨_, -, -, contrary⟩ | ⟨middle, vs, v, values, concluded, rfl⟩
  · cases contrary
  have spec := a.conclude_spec (w := w) middle (length_of_evaluateAll values)
  rw [concluded] at spec
  obtain ⟨target, rfl⟩ := spec
  refine ⟨target, by cases a.defines? <;> rfl, ?_⟩
  cases a with
  | branch | goto | «switch» => rfl
  | _ => cases target

theorem Method.trapFor?_spec {x : V} {position : Nat} {t : Trap}
    (found : m.trapFor? w x position = some t) : t ∈ m.traps ∧ m.covered t position = true := by
  have holds := find?_some found
  rw [Bool.and_eq_true] at holds
  exact ⟨mem_of_find?_eq_some found, holds.1⟩

/-- What a run remembers of the way it took: unless it has run off the end of the body, there is a
trail with the same way into the block, and what was assigned along it is set. -/
def State.Tracked (m : Method) (s : State V) : Prop :=
  s.position < m.actions.length → ∃ assigned entered,
    m.Trail s.position assigned s.origin entered ∧ (∀ l ∈ assigned, (s.env l).isSome) ∧
      ∀ l ∈ entered, (s.entering l).isSome

variable {s : State V} {move : Move V}

section

variable (found : m.actions[s.position]? = some (.phi target args))

include found

theorem State.step_of_phi :
    s.step w m = match s.perform w (.phi target args) with
      | none => .stuck
      | some (history, env, move) => { s with history, env }.follow w m move := by
  unfold step
  rw [found]
  rfl

theorem State.step_eq_of_phi
    (unstuck : s.step w m ≠ .stuck) :
    ∃ arg v, Method.picked s.origin args = some arg ∧ s.entering arg.value = some v ∧
      s.step w m = .running ({ s with env := s.env.set target v }.goTo m (s.position + 1) false) := by
  rw [step_of_phi found] at unstuck ⊢
  simp only [perform] at unstuck ⊢
  cases picks : Method.picked s.origin args with
  | none =>
    unfold Method.picked at picks
    rw [picks] at unstuck
    exact absurd rfl unstuck
  | some arg =>
    have found := picks
    unfold Method.picked at found
    rw [found, Option.bind_some] at unstuck ⊢
    cases value : s.entering arg.value with
    | none =>
      rw [value] at unstuck
      exact absurd rfl unstuck
    | some v => exact ⟨arg, v, rfl, value, rfl⟩

end

section

variable (found : m.actions[s.position]? = some a) (single : a.isPhi = false)

include found single

theorem State.step_of_carryOut
    (done : a.carryOut w s.env s.caught s.history = some (history, env, move)) :
    s.step w m = { s with history, env, caught := if a.isLabel then s.caught else none }.follow w m
      move := by
  unfold step
  rw [found]
  dsimp only
  rw [perform_eq s single, done]
  simp only [single, Bool.or_false]

theorem State.step_eq_of_plain
    (unstuck : s.step w m ≠ .stuck) :
    ∃ history env move, a.carryOut w s.env s.caught s.history = some (history, env, move) ∧
      s.step w m = { s with history, env, caught := if a.isLabel then s.caught else none }.follow w m
        move := by
  rcases performed : a.carryOut w s.env s.caught s.history with _ | ⟨history, env, move⟩
  · refine absurd ?_ unstuck
    unfold step
    rw [found]
    dsimp only
    rw [perform_eq s single, performed]
  · exact ⟨history, env, move, rfl, step_of_carryOut found single performed⟩

end

/-- What a step has done that a run goes on after: it has set what the statement defines, or an
exception has kept it from that, and control has gone along an edge if it has not left the body. -/
structure State.Stepped (m : Method) (s middle : State V) (a : Action) (next : Nat)
    (exceptional : Bool) : Prop where
  found : m.actions[s.position]? = some a
  position : middle.position = s.position
  origin : middle.origin = s.origin
  entering : middle.entering = s.entering
  edge : next < m.actions.length → m.Edge s.position next exceptional
  kept : ∀ l, (if exceptional then none else a.defines?) ≠ some l → middle.env l = s.env l
  gives : ∀ l, (if exceptional then none else a.defines?) = some l → (middle.env l).isSome

section

variable (tidy : m.Tidy) (proper : m.Proper)

include tidy proper

theorem State.exists_stepped {t : State V}
    (step : s.step w m = .running t) :
    ∃ a middle next exceptional, Stepped m s middle a next exceptional ∧
      t = goTo m middle next exceptional := by
  have unstuck : s.step w m ≠ .stuck := by
    rw [step]
    exact nofun
  cases found : m.actions[s.position]? with
  | none =>
    unfold State.step at step
    rw [found] at step
    cases step
  | some a =>
    have next : a.fallsThrough = true → s.position + 1 < m.actions.length →
        m.Edge s.position (s.position + 1) false :=
      fun falls inside => tidy.mem_succsOf.mpr ⟨a, found, .inl ⟨falls, inside, rfl⟩⟩
    cases single : a.isPhi with
    | true =>
      cases a with
      | phi target args =>
        obtain ⟨arg, v, -, -, same⟩ := step_eq_of_phi found unstuck
        rw [same] at step
        obtain rfl := Status.running.inj step
        refine ⟨.phi target args, _, _, false, ?_, rfl⟩
        refine ⟨found, rfl, rfl, rfl, next rfl, fun l other => ?_, fun l own => ?_⟩
        · exact @Env.define_of_ne V s.env (some target) l other (some v)
        · cases own
          simp [Env.set]
      | _ => cases single
    | false =>
      obtain ⟨history, env, move, performed, same⟩ := step_eq_of_plain found single unstuck
      rw [same] at step
      cases move with
      | next =>
        obtain ⟨falls, kept, gives⟩ := Action.carryOut_next single performed
        obtain rfl := Status.running.inj step
        refine ⟨a, _, _, false, ?_, rfl⟩
        exact ⟨found, rfl, rfl, rfl, next falls, kept, gives⟩
      | jump l =>
        obtain ⟨target, rfl, none⟩ := Action.carryOut_jump performed
        simp only [follow] at step
        cases there : m.find? l with
        | none =>
          rw [there] at step
          cases step
        | some goal =>
          rw [there] at step
          obtain rfl := Status.running.inj step
          refine ⟨a, _, _, false, ?_, rfl⟩
          exact ⟨found, rfl, rfl, rfl, fun _ => tidy.mem_succsOf.mpr
            ⟨a, found, .inr ⟨l, target, there⟩⟩, fun _ _ => rfl, fun _ own => by cases none.symm.trans own⟩
      | finish v => cases step
      | raise x =>
        obtain ⟨throws, rfl⟩ := proper.canThrow_of_raise (mem_of_getElem? found) performed
        simp only [follow] at step
        cases taken : m.trapFor? w x s.position with
        | none =>
          rw [taken] at step
          cases step
        | some trap =>
          rw [taken] at step
          dsimp only at step
          obtain ⟨listed, covered⟩ := Method.trapFor?_spec taken
          cases there : m.find? trap.handler with
          | none =>
            rw [there] at step
            cases step
          | some goal =>
            rw [there] at step
            obtain rfl := Status.running.inj step
            refine ⟨a, _, _, true, ?_, rfl⟩
            exact ⟨found, rfl, rfl, rfl, fun _ => tidy.mem_exSuccsOf.mpr
              ⟨a, found, throws, trap, listed, covered, there⟩, fun _ _ => rfl, nofun⟩

theorem State.Tracked.step {s t : State V}
    (tracked : s.Tracked m) (step : s.step w m = .running t) : t.Tracked m := by
  obtain ⟨a, middle, next, exceptional, stepped, rfl⟩ := exists_stepped tidy proper step
  intro inside
  rw [goTo_position] at inside
  obtain ⟨assigned, entered, trail, set, setEntering⟩ := tracked (lt_of_get stepped.found)
  obtain ⟨more, listed, onward⟩ := (stepped.edge inside).trail trail
  have setMore : ∀ l ∈ more, (middle.env l).isSome := by
    intro l member
    by_cases own : (if exceptional then none else a.defines?) = some l
    · exact stepped.gives l own
    · rw [stepped.kept l own]
      refine set l (((listed l).mp member).resolve_right ?_)
      rintro ⟨rfl, defined⟩
      rw [Method.definedAt_eq stepped.found] at defined
      exact own (Option.mem_toList.mp defined)
  refine ⟨more, if m.enters next then more else entered, ?_, ?_, ?_⟩
  · rwa [goTo_position, goTo_origin, stepped.position, stepped.origin]
  · rwa [goTo_env]
  · rw [goTo_entering, stepped.entering]
    split
    · exact setMore
    · exact setEntering

theorem Method.tracked_of_run {n : Nat} (reached : m.run w n = .running s) : s.Tracked m := by
  induction n generalizing s with
  | zero =>
    obtain rfl := Status.running.inj reached
    exact fun _ => ⟨[], [], .start, by simp, by simp⟩
  | succ n ih =>
    have step : (m.run w n).step w m = .running s := reached
    cases before : m.run w n with
    | running t =>
      rw [before] at step
      exact (ih before).step tidy proper step
    | _ =>
      rw [before] at step
      cases step

end

end Runs

end DexLift.Ir

/-! ## What a position knows -/

namespace DexLift.Ir

namespace Method

variable {m : Method} {position next : Nat} {x : LocalId} {a : Action}

def Defines (m : Method) (x : LocalId) : Prop := ∃ a ∈ m.actions, a.defines? = some x

/-- A statement stands at a position, and every path to it assigns a local. -/
def Knows (m : Method) (position : Nat) (x : LocalId) : Prop :=
  position < m.actions.length ∧ (Flow.ofMethod m).Assigns position x

/-- A statement stands at a position, and every trail there by a way into the block had assigned a
local when it entered. -/
def Carries (m : Method) (position : Nat) (way : Label × Bool) (x : LocalId) : Prop :=
  position < m.actions.length ∧
    ∀ assigned entered, m.Trail position assigned way entered → x ∈ entered

theorem SingleAssignment.knows (single : m.SingleAssignment)
    (found : m.actions[position]? = some a) (read : x ∈ a.uses) : m.Knows position x :=
  ⟨lt_of_get found, single.reads position a x found read⟩

theorem SingleAssignment.carries (single : m.SingleAssignment) {target : LocalId}
    {args : List PhiArg} (found : m.actions[position]? = some (.phi target args))
    {way : Label × Bool} {arg : PhiArg} (picks : picked way args = some arg) :
    m.Carries position way arg.value :=
  ⟨lt_of_get found, fun assigned entered trail =>
    single.joins position target args arg assigned entered way found trail picks⟩

/-- From one position to another: what is known or carried there comes from here or is what is
defined on the way. -/
structure Way (m : Method) (position next : Nat) (exceptional : Bool) (own : Option LocalId) :
    Prop where
  known : ∀ x, m.Knows next x → own = some x ∨ m.Knows position x
  carried : ∀ way x, m.Carries next
      (if m.enters next then (m.blockAt position, exceptional) else way) x →
    if m.enters next then own = some x ∨ m.Knows position x else m.Carries position way x

theorem way_of_succ (found : m.actions[position]? = some a)
    (edge : next < m.actions.length → next ∈ (Flow.ofMethod m).succsOf position) :
    m.Way position next false a.defines? := by
  have here : position < m.actions.length := lt_of_get found
  have split : ∀ x, (∀ assigned way entered, m.Trail position assigned way entered →
      x ∈ m.definedAt position ++ assigned) → a.defines? = some x ∨ m.Knows position x := by
    intro x always
    by_cases own : a.defines? = some x
    · exact .inl own
    · refine .inr ⟨here, assigns_iff.mpr fun assigned way entered trail => ?_⟩
      have member := always assigned way entered trail
      rw [definedAt_eq found] at member
      rcases List.mem_append.mp member with defined | before
      · exact absurd (Option.mem_toList.mp defined) own
      · exact before
  refine ⟨fun x ⟨inside, always⟩ => ?_, fun way x ⟨inside, always⟩ => ?_⟩
  · exact split x fun assigned way entered trail => always _ (trail.normal (edge inside)).path
  · by_cases enters : m.enters next = true
    · rw [if_pos enters] at always ⊢
      refine split x fun assigned other entered trail => ?_
      have more := trail.normal (edge inside)
      rw [if_pos enters, if_pos enters] at more
      exact always _ _ more
    · rw [if_neg enters] at always ⊢
      refine ⟨here, fun assigned entered trail => ?_⟩
      have more := trail.normal (edge inside)
      rw [if_neg enters, if_neg enters] at more
      exact always _ _ more

section

variable (tidy : m.Tidy) (found : m.actions[position]? = some a)

include tidy found

theorem Tidy.way_next (falls : a.fallsThrough = true) :
    m.Way position (position + 1) false a.defines? :=
  way_of_succ found fun inside => tidy.mem_succsOf.mpr ⟨a, found, .inl ⟨falls, inside, rfl⟩⟩

theorem Tidy.way_jump {l : Label} (target : l ∈ a.targets) (there : m.find? l = some next) :
    m.Way position next false a.defines? :=
  way_of_succ found fun _ => tidy.mem_succsOf.mpr ⟨a, found, .inr ⟨l, target, there⟩⟩

theorem Tidy.way_thrown (throws : a.canThrow = true) {t : Trap} (listed : t ∈ m.traps)
    (covered : m.covered t position = true) (there : m.find? t.handler = some next) :
    m.Way position next true none := by
  have here : position < m.actions.length := lt_of_get found
  have edge : next ∈ (Flow.ofMethod m).exSuccsOf position :=
    tidy.mem_exSuccsOf.mpr ⟨a, found, throws, t, listed, covered, there⟩
  refine ⟨fun x ⟨_, always⟩ => .inr ⟨here, always.of_thrown edge⟩, fun way x ⟨_, always⟩ => ?_⟩
  by_cases enters : m.enters next = true
  · rw [if_pos enters] at always ⊢
    refine .inr ⟨here, assigns_iff.mpr fun assigned other entered trail => ?_⟩
    have more := trail.thrown edge
    rw [if_pos enters, if_pos enters] at more
    exact always _ _ more
  · rw [if_neg enters] at always ⊢
    refine ⟨here, fun assigned entered trail => ?_⟩
    have more := trail.thrown edge
    rw [if_neg enters, if_neg enters] at more
    exact always _ _ more

end

end Method

section Tracked

variable {V : Type} {m : Method} {s : State V} {x : LocalId}

theorem State.Tracked.isSome_env (tracked : s.Tracked m) (known : m.Knows s.position x) :
    (s.env x).isSome := by
  obtain ⟨assigned, entered, trail, set, -⟩ := tracked known.1
  exact set x (known.2 assigned trail.path)

end Tracked

/-! ## States that agree -/

/-- Two states, each in its method, that agree on the way into the block and on what is known, apart
from locals that are hidden. -/
structure State.Alike {V : Type} (m : Method) (hidden : LocalId → Prop) (s t : State V) : Prop where
  origin : t.origin = s.origin
  env : ∀ x, ¬ hidden x → m.Knows s.position x → t.env x = s.env x
  entering : ∀ x, ¬ hidden x → m.Carries s.position s.origin x → t.entering x = s.entering x

section Alike

variable {V : Type} {m n : Method} {hidden : LocalId → Prop} {s t middle after : State V}

/-- Going on along edges between the same blocks keeps states alike. -/
theorem State.Alike.goTo (alike : s.Alike m hidden t) {next goal : Nat} {exceptional : Bool}
    {own : Option LocalId} (way : m.Way s.position next exceptional own)
    (enters : n.enters goal = m.enters next) (block : n.blockAt t.position = m.blockAt s.position)
    (position : middle.position = s.position) (origin : middle.origin = s.origin)
    (entering : middle.entering = s.entering) (position_ : after.position = t.position)
    (origin_ : after.origin = t.origin) (entering_ : after.entering = t.entering)
    (env : ∀ x, ¬ hidden x → own = some x ∨ m.Knows s.position x → after.env x = middle.env x) :
    (middle.goTo m next exceptional).Alike m hidden (after.goTo n goal exceptional) := by
  refine ⟨?_, fun x apart known => ?_, fun x apart carried => ?_⟩
  · rw [goTo_origin, goTo_origin, enters, position, position_, block, origin, origin_, alike.origin]
  · rw [goTo_position] at known
    rw [goTo_env, goTo_env]
    exact env x apart (way.known x known)
  · rw [goTo_position, goTo_origin, position, origin] at carried
    have before := way.carried s.origin x carried
    rw [goTo_entering, goTo_entering, enters]
    split
    next inside =>
      rw [if_pos inside] at before
      exact env x apart before
    next outside =>
      rw [if_neg outside] at before
      rw [entering, entering_]
      exact alike.entering x apart before

end Alike

end DexLift.Ir
