import DexLift.Proofs.Ir.Places
import Mathlib.Logic.Function.Iterate
import Mathlib.Order.Monotone.Basic
import Mathlib.Tactic.Choose

/-!
# Walking along a body

A run goes from statement to statement. What the joins of a block see is fixed
when control comes to the label of the block, so a run that stands in front of a
label must already know the block it came from. `Stands` keeps that knowledge
along a walk: which statements come next, which block the position belongs to,
and what was kept for joins.

A method takes the place of another when each of its runs has a run of the other
beside it: whatever the number of steps it has made, some number of steps of the
other comes equally far. The other may make several steps or none for one step,
but it may not stand still for ever.
-/

namespace DexLift.Ir

open List

variable {a : Action} {source l : Label} {m : Method}

variable {V : Type}

/-! ## Several steps -/

def Leads (w : World V) (m : Method) (count : Nat) (a b : Status (State V) V) : Prop :=
  (Status.step w m)^[count] a = b

section Leads

variable {w : World V} {m : Method} {a b c : Status (State V) V}

theorem Leads.refl (a : Status (State V) V) : Leads w m 0 a a := rfl

theorem Leads.trans {first second : Nat} (walk : Leads w m first a b)
    (more : Leads w m second b c) : Leads w m (first + second) a c := by
  rwa [Leads, Nat.add_comm, Function.iterate_add_apply, walk]

theorem Leads.one {s : State V} (step : s.step w m = b) : Leads w m 1 (.running s) b := step

theorem Leads.run {count done : Nat} (walk : Leads w m count a b) (before : m.run w done = a) :
    m.run w (done + count) = b := by
  have iterates : ∀ n, m.run w n = (Status.step w m)^[n] (.running .start) := by
    intro n
    induction n with
    | zero => rfl
    | succ n ih =>
      rw [Function.iterate_succ_apply', ← ih]
      rfl
  rw [iterates] at before ⊢
  exact Leads.trans before walk

end Leads

/-! ## Going to a position -/

namespace State

variable {m : Method}

section

variable (s : State V) (position : Nat) (exceptional : Bool)

include s position exceptional

@[simp] theorem goTo_position : (s.goTo m position exceptional).position = position := by
  unfold goTo
  split
  · split <;> rfl
  · rfl

@[simp] theorem goTo_env : (s.goTo m position exceptional).env = s.env := by
  unfold goTo
  split
  · split <;> rfl
  · rfl

@[simp] theorem goTo_caught : (s.goTo m position exceptional).caught = s.caught := by
  unfold goTo
  split
  · split <;> rfl
  · rfl

@[simp] theorem goTo_history : (s.goTo m position exceptional).history = s.history := by
  unfold goTo
  split
  · split <;> rfl
  · rfl

end

theorem goTo_of_plain (s : State V) {position : Nat} {exceptional : Bool}
    (there : m.actions[position]? = some a) (plain : a.label? = none) :
    s.goTo m position exceptional = { s with position } := by
  unfold goTo
  split
  next l label =>
    rw [label] at there
    cases there
    cases plain
  · rfl

/-- If a block begins at the position, its joins see the source of the way in. -/
def Arrived (m : Method) (s : State V) (source : Label) (exceptional : Bool) : Prop :=
  ∀ l, m.actions[s.position]? = some (.label l) → m.opens l = true →
    s.entering = s.env ∧ s.origin.2 = exceptional ∧ (m.opens source = true → s.origin.1 = source)

theorem arrived_goTo (s : State V) (position : Nat) (exceptional : Bool)
    (block : m.opens source = true → m.blockAt s.position = source) :
    (s.goTo m position exceptional).Arrived m source exceptional := by
  intro l label opens
  rw [goTo_position] at label
  unfold goTo
  rw [label]
  dsimp only
  rw [if_pos opens]
  exact ⟨rfl, rfl, block⟩

/-- A run stands in a block in front of some statements; `ended` tells whether a transfer of control
has ended the block. -/
structure Stands (m : Method) (s : State V) (source : Label) (ended : Bool) (rest : List Action) :
    Prop where
  here : m.From s.position rest
  block : m.opens source = true → m.standing s.position = ⟨source, ended⟩
  arrived : s.Arrived m source false

end State

/-! ## Passing over statements -/

theorem pass_label {ended : Bool} (closed : m.opens l = false) :
    Method.Standing.pass m.opens ⟨source, ended⟩ (.label l) = ⟨source, ended⟩ := by
  simp [Method.Standing.pass, closed]

theorem pass_plain (plain : a.label? = none) :
    Method.Standing.pass m.opens ⟨source, false⟩ a = ⟨source, a.endsBlock⟩ := by
  cases a with
  | label => cases plain
  | _ => rfl

namespace State

variable {m : Method} {s : State V} {source : Label} {ended next : Bool} {a : Action}
  {rest : List Action}

section

variable (stands : s.Stands m source ended (a :: rest))
  (pass : Method.Standing.pass m.opens ⟨source, ended⟩ a = ⟨source, next⟩)

include stands pass

theorem Stands.blockAt (opens : m.opens source = true) : m.blockAt s.position = source := by
  rw [Method.blockAt_eq stands.here, stands.block opens, pass]

theorem Stands.goOn {after : State V} (position : after.position = s.position) :
    (after.goTo m (s.position + 1) false).Stands m source next rest := by
  refine ⟨?_, ?_, ?_⟩
  · rw [goTo_position]
    exact stands.here.next
  · intro opens
    rw [goTo_position, Method.standing_next stands.here, stands.block opens, pass]
  · refine after.arrived_goTo _ _ fun opens => ?_
    rw [position]
    exact stands.blockAt pass opens

end

variable (w : World V)

theorem step_label (here : m.actions[s.position]? = some (.label l)) :
    s.step w m = .running (s.goTo m (s.position + 1) false) := by
  unfold State.step
  rw [here]
  rfl

theorem step_plain (here : m.actions[s.position]? = some a) (plain : a.label? = none)
    (single : a.isPhi = false) {history : History V} {env : Env V} {move : Move V}
    (performs : s.perform w a = some (history, env, move)) :
    s.step w m = { s with history, env, caught := none }.follow w m move := by
  have other : a.isLabel = false := by
    cases a with
    | label => cases plain
    | _ => rfl
  unfold State.step
  rw [here]
  dsimp only
  rw [performs]
  simp [other, single]

theorem stands_of_header (here : m.From s.position (.label l :: rest)) :
    s.step w m = .running (s.goTo m (s.position + 1) false) ∧
      (s.goTo m (s.position + 1) false).Stands m l false rest := by
  refine ⟨step_label w here.get, ?_, ?_, ?_⟩
  · rw [goTo_position]
    exact here.next
  · intro opens
    rw [goTo_position, Method.standing_next here, Method.Standing.pass, if_pos opens]
  · refine s.arrived_goTo _ _ fun opens => ?_
    rw [Method.blockAt_eq here, Method.Standing.pass, if_pos opens]

theorem Stands.throughLabels {labels : List Label}
    (stands : s.Stands m source ended (labels.map Action.label ++ rest))
    (closed : ∀ l ∈ labels, m.opens l = false) :
    ∃ t : State V, Leads w m labels.length (.running s) (.running t) ∧
      t.Stands m source ended rest ∧ t.env = s.env ∧ t.caught = s.caught ∧
      t.history = s.history := by
  induction labels generalizing s with
  | nil => exact ⟨s, .refl _, stands, rfl, rfl, rfl⟩
  | cons l labels ih =>
    have step := step_label w stands.here.get
    have on := stands.goOn (pass_label (closed l (by simp))) (rfl : s.position = s.position)
    obtain ⟨t, leads, there, env, caught, history⟩ :=
      ih on fun other member => closed other (.tail _ member)
    refine ⟨t, ?_, there, ?_, ?_, ?_⟩
    · rw [length_cons, Nat.add_comm]
      exact (Leads.one step).trans leads
    · rw [env, goTo_env]
    · rw [caught, goTo_caught]
    · rw [history, goTo_history]

/-! ## Joins -/

/-- What a join reads when a way in was taken. -/
def incoming (origin : Label × Bool) (entering : Env V) (args : List PhiArg) : Option V :=
  (args.find? fun a => a.pred == origin.1 && a.exceptional == origin.2).bind fun a =>
    entering a.value

theorem step_phi {target : LocalId} {args : List PhiArg} {v : V}
    (here : m.actions[s.position]? = some (.phi target args))
    (reads : incoming s.origin s.entering args = some v) :
    s.step w m = .running ({ s with env := s.env.set target v }.goTo m (s.position + 1) false) := by
  have performs : s.perform w (.phi target args) =
      some (s.history, s.env.set target v, .next) := by
    obtain ⟨a, found, value⟩ := Option.bind_eq_some_iff.mp reads
    simp [State.perform, found, value]
  unfold State.step
  rw [here]
  dsimp only
  rw [performs]
  rfl

/-- The joins of a block all read what the locals were on the way in, and set nothing but their own
locals. -/
theorem Stands.throughJoins {rs : List Nat} {target : Nat → LocalId} {args : Nat → List PhiArg}
    {origin : Label × Bool} {entering : Env V}
    (stands : s.Stands m source false (rs.map (fun r => Action.phi (target r) (args r)) ++ rest))
    (sees : rs ≠ [] → s.origin = origin ∧ s.entering = entering)
    (reads : ∀ r ∈ rs, ∃ v, incoming origin entering (args r) = some v)
    (distinct : (rs.map target).Nodup) :
    ∃ t : State V, Leads w m rs.length (.running s) (.running t) ∧
      t.Stands m source false rest ∧ t.position = s.position + rs.length ∧
      (∀ r ∈ rs, t.env (target r) = incoming origin entering (args r)) ∧
      (∀ l, l ∉ rs.map target → t.env l = s.env l) ∧
      t.caught = s.caught ∧ t.history = s.history := by
  induction rs generalizing s with
  | nil => exact ⟨s, .refl _, stands, rfl, by simp, fun _ _ => rfl, rfl, rfl⟩
  | cons r rs ih =>
    obtain ⟨sameOrigin, sameEntering⟩ := sees (by simp)
    obtain ⟨v, value⟩ := reads r (by simp)
    rw [map_cons, nodup_cons] at distinct
    have step := step_phi w stands.here.get (by rwa [sameOrigin, sameEntering])
    let set : State V := { s with env := s.env.set (target r) v }
    have on : (set.goTo m (s.position + 1) false).Stands m source false
        (rs.map (fun r => Action.phi (target r) (args r)) ++ rest) :=
      stands.goOn (pass_plain rfl) rfl
    have later : rs ≠ [] → (set.goTo m (s.position + 1) false).origin = origin ∧
        (set.goTo m (s.position + 1) false).entering = entering := by
      intro more
      -- The next statement is a join too, so nothing is noted anew.
      obtain ⟨i, others, rfl⟩ := exists_cons_of_ne_nil more
      rw [set.goTo_of_plain stands.here.next.get rfl]
      exact ⟨sameOrigin, sameEntering⟩
    obtain ⟨t, leads, there, position, joined, others, caught, history⟩ := ih on
      later (fun i member => reads i (.tail _ member)) distinct.2
    refine ⟨t, ?_, there, ?_, ?_, ?_, ?_, ?_⟩
    · rw [length_cons, Nat.add_comm]
      exact (Leads.one step).trans leads
    · rw [position, goTo_position, length_cons]
      omega
    · intro i member
      rcases mem_cons.mp member with rfl | inside
      · rw [others _ distinct.1, goTo_env, value]
        exact if_pos rfl
      · exact joined i inside
    · intro l outside
      rw [map_cons, mem_cons, not_or] at outside
      rw [others l outside.2, goTo_env]
      exact if_neg outside.1
    · rw [caught, goTo_caught]
    · rw [history, goTo_history]

end State

end DexLift.Ir

/-! ## Runs side by side -/

namespace DexLift.Ir

variable {V : Type}

/-- Two runs that have come equally far: both go on from states that belong together, or both have
ended alike. Nothing is asked of a run beside one that is stuck. -/
inductive Beside (related : State V → State V → Prop) :
    Status (State V) V → Status (State V) V → Prop where
  | running {s t : State V} (here : related s t) : Beside related (.running s) (.running t)
  | returned (v : Option V) (history : History V) :
      Beside related (.returned v history) (.returned v history)
  | uncaught (x : V) (history : History V) :
      Beside related (.uncaught x history) (.uncaught x history)
  | stuck (status : Status (State V) V) : Beside related .stuck status

namespace Beside

variable {related other both : State V → State V → Prop} {a b c : Status (State V) V}

theorem mono (beside : Beside related a b) (weaker : ∀ s t, related s t → other s t) :
    Beside other a b := by
  cases beside with
  | running here => exact .running (weaker _ _ here)
  | returned v history => exact .returned v history
  | uncaught x history => exact .uncaught x history
  | stuck => exact .stuck b

theorem comp (first : Beside related a b) (second : Beside other b c)
    (through : ∀ r s t, related r s → other s t → both r t) : Beside both a c := by
  cases first with
  | running here =>
    cases second with
    | running there => exact .running (through _ _ _ here there)
  | returned v history =>
    cases second
    exact .returned v history
  | uncaught x history =>
    cases second
    exact .uncaught x history
  | stuck => exact .stuck c

theorem seen (beside : Beside related a b) (unstuck : a ≠ .stuck)
    (histories : ∀ s t, related s t → t.history = s.history) :
    a.seen State.history = b.seen State.history := by
  cases beside with
  | running here => exact congrArg Seen.running (histories _ _ here).symm
  | returned => rfl
  | uncaught => rfl
  | stuck => exact absurd rfl unstuck

end Beside

/-- Every run of the second method has a run of the first beside it, which goes on as long as it
does. -/
def Method.TakesPlace (w : World V) (related : State V → State V → Prop) (m n : Method) : Prop :=
  ∃ pace : Nat → Nat, Monotone pace ∧ (∀ bound, ∃ k, bound ≤ pace k) ∧
    ∀ k, Beside related (m.run w (pace k)) (n.run w k)

namespace Method.TakesPlace

variable {w : World V} {related other both : State V → State V → Prop} {m n p : Method}

theorem mono (takes : TakesPlace w related m n) (weaker : ∀ s t, related s t → other s t) :
    TakesPlace w other m n := by
  obtain ⟨pace, monotone, unbounded, beside⟩ := takes
  exact ⟨pace, monotone, unbounded, fun k => (beside k).mono weaker⟩

theorem comp (first : TakesPlace w related m n) (second : TakesPlace w other n p)
    (through : ∀ r s t, related r s → other s t → both r t) : TakesPlace w both m p := by
  obtain ⟨pace, monotone, unbounded, beside⟩ := first
  obtain ⟨next, monotoneNext, unboundedNext, besideNext⟩ := second
  refine ⟨pace ∘ next, monotone.comp monotoneNext, fun bound => ?_, fun k => ?_⟩
  · obtain ⟨middle, le⟩ := unbounded bound
    obtain ⟨k, leNext⟩ := unboundedNext middle
    exact ⟨k, le.trans (monotone leNext)⟩
  · exact (beside (next k)).comp (besideNext k) through

theorem refl (reflexive : ∀ s, related s s) : TakesPlace w related m m := by
  refine ⟨id, monotone_id, fun bound => ⟨bound, le_rfl⟩, fun k => ?_⟩
  show Beside related (m.run w k) (m.run w k)
  cases m.run w k with
  | running s => exact .running (reflexive s)
  | returned v history => exact .returned v history
  | uncaught x history => exact .uncaught x history
  | stuck => exact .stuck _

end Method.TakesPlace

section Pace

variable (w : World V) {related : State V → State V → Prop} {m n : Method}

/-- How a step of the second method is made up for: the first makes some steps, or none while
something decreases. -/
def MadeUp (w : World V) (related : State V → State V → Prop) (measure : State V → Nat)
    (m n : Method) (s t : State V) : Prop :=
  ∃ count status, Leads w m count (.running s) status ∧ Beside related status (t.step w n) ∧
    (count = 0 → ∃ after, t.step w n = .running after ∧ measure after < measure t)

/-- A step of the second run, whatever the two have come to. -/
theorem Beside.advance {measure : State V → Nat}
    (step : ∀ s t done k, m.run w done = .running s → n.run w k = .running t → related s t →
      MadeUp w related measure m n s t) {done k : Nat}
    (here : Beside related (m.run w done) (n.run w k)) :
    ∃ more, Beside related (m.run w (done + more)) (n.run w (k + 1)) ∧
      (more = 0 → ∃ t after, n.run w k = .running t ∧ n.run w (k + 1) = .running after ∧
        measure after < measure t) := by
  have next : n.run w (k + 1) = (n.run w k).step w n := rfl
  have one : m.run w (done + 1) = (m.run w done).step w m := rfl
  generalize reached : m.run w done = a at here
  generalize reachedOther : n.run w k = b at here
  cases here with
  | @running s t belong =>
    obtain ⟨count, status, leads, there, falls⟩ := step s t done k reached reachedOther belong
    refine ⟨count, ?_, fun none => ?_⟩
    · rwa [leads.run reached, next, reachedOther]
    · obtain ⟨after, same, less⟩ := falls none
      refine ⟨t, after, rfl, ?_, less⟩
      rwa [next, reachedOther]
  | returned v history =>
    refine ⟨1, ?_, nofun⟩
    rw [one, next, reached, reachedOther]
    exact .returned v history
  | uncaught x history =>
    refine ⟨1, ?_, nofun⟩
    rw [one, next, reached, reachedOther]
    exact .uncaught x history
  | stuck =>
    refine ⟨1, ?_, nofun⟩
    rw [one, reached]
    exact .stuck _

theorem unbounded_of_falls {measure : State V → Nat} {pace : Nat → Nat} (monotone : Monotone pace)
    (falls : ∀ k, pace (k + 1) = pace k → ∃ t after, n.run w k = .running t ∧
      n.run w (k + 1) = .running after ∧ measure after < measure t) (bound : Nat) :
    ∃ k, bound ≤ pace k := by
  have rises : ∀ size k t, n.run w k = .running t → measure t = size →
      ∃ later, pace k < pace later := by
    intro size
    induction size using Nat.strongRecOn with
    | ind size ih =>
      intro k t here same
      rcases Nat.eq_or_lt_of_le (monotone (Nat.le_add_right k 1)) with still | more
      · obtain ⟨before, after, first, second, less⟩ := falls k still.symm
        cases here.symm.trans first
        obtain ⟨later, more⟩ := ih _ (same ▸ less) (k + 1) after second rfl
        exact ⟨later, still ▸ more⟩
      · exact ⟨k + 1, more⟩
  have ever : ∀ k, ∃ later, pace k < pace later := by
    intro k
    rcases Nat.eq_or_lt_of_le (monotone (Nat.le_add_right k 1)) with still | more
    · obtain ⟨t, after, here, -, -⟩ := falls k still.symm
      exact rises _ k t here rfl
    · exact ⟨k + 1, more⟩
  induction bound with
  | zero => exact ⟨0, Nat.zero_le _⟩
  | succ bound ih =>
    obtain ⟨k, le⟩ := ih
    obtain ⟨later, more⟩ := ever k
    exact ⟨later, lt_of_le_of_lt le more⟩

theorem Method.takesPlace_of_step (measure : State V → Nat) {count : Nat}
    (start : Beside related (m.run w count) (n.run w 0))
    (step : ∀ s t done k, m.run w done = .running s → n.run w k = .running t → related s t →
      MadeUp w related measure m n s t) : m.TakesPlace w related n := by
  have more : ∀ k (done : { done // Beside related (m.run w done) (n.run w k) }),
      ∃ next : { done // Beside related (m.run w done) (n.run w (k + 1)) }, done.1 ≤ next.1 ∧
        (next.1 = done.1 → ∃ t after, n.run w k = .running t ∧
          n.run w (k + 1) = .running after ∧ measure after < measure t) := by
    rintro k ⟨done, here⟩
    obtain ⟨more, there, falls⟩ := here.advance w step
    exact ⟨⟨done + more, there⟩, Nat.le_add_right _ _, fun same => falls (by
      dsimp only at same
      omega)⟩
  choose next le falls using more
  let pace (k : Nat) : { done // Beside related (m.run w done) (n.run w k) } :=
    Nat.rec ⟨count, start⟩ (fun k done => next k done) k
  have monotone : Monotone fun k => (pace k).1 := monotone_nat_of_le_succ fun k => le k (pace k)
  exact ⟨fun k => (pace k).1, monotone,
    unbounded_of_falls w monotone fun k => falls k (pace k), fun k => (pace k).2⟩

end Pace

end DexLift.Ir
