import DexLift.Proofs.Ir.Sifting

/-!
# Locals that have the value of another

A local mirrors another one when every trail that has assigned it has assigned the
other, and when it has the value of the other wherever every trail has assigned
it. A copy mirrors its source, and a join mirrors the one local that its operands
mirror, if they do not mirror the join itself. The argument is the same for both:
where the other local is set anew, the first trail that comes there has not
assigned the copy yet, so nothing there may rely on it.
-/

namespace DexLift.Ir.Method

open List State

variable {a : Action} {exceptional : Bool} {args : List PhiArg}

variable {m : Method} {position next : Nat} {assigned entered : List LocalId}
  {origin : Label × Bool} {x y z : LocalId}

/-! ## First arrivals -/

section

variable (trail : m.Trail position assigned origin entered)

include trail

theorem Trail.entered_subset : entered ⊆ assigned := by
  induction trail with
  | start => exact Subset.refl _
  | normal _ _ ih =>
    split
    · exact Subset.refl _
    · exact subset_append_of_subset_right _ ih
  | thrown _ _ ih =>
    split
    · exact Subset.refl _
    · exact ih

theorem Trail.arrival (listed : x ∈ assigned) :
    ∃ place next before way earlier, m.Trail place before way earlier ∧
      next ∈ (Flow.ofMethod m).succsOf place ∧ x ∈ m.definedAt place ∧ x ∉ before ∧
      before ⊆ assigned := by
  induction trail with
  | start => cases listed
  | @normal position next assigned entered origin trail edge ih =>
    by_cases already : x ∈ assigned
    · obtain ⟨place, next, before, way, earlier, there, goes, defined, new, sub⟩ :=
        ih already
      exact ⟨place, next, before, way, earlier, there, goes, defined, new,
        subset_append_of_subset_right _ sub⟩
    · exact ⟨position, next, assigned, origin, entered, trail, edge,
        (mem_append.mp listed).resolve_right already, already, subset_append_right _ _⟩
  | thrown _ _ ih => exact ih listed

end

theorem eq_of_definedAt (first : x ∈ m.definedAt position) (second : y ∈ m.definedAt position) :
    x = y :=
  Option.some.inj ((Option.mem_toList.mp first).symm.trans (Option.mem_toList.mp second))

theorem SingleAssignment.position_eq (single : m.SingleAssignment) {other : Nat}
    (found : m.actions[position]? = some a) (defines : a.defines? = some x)
    (defined : x ∈ m.definedAt other) : other = position := by
  cases there : m.actions[other]? with
  | none =>
    rw [definedAt, Flow.action_ofMethod, there] at defined
    cases defined
  | some b =>
    rw [definedAt_eq there] at defined
    exact single.once other position b a x there found (Option.mem_toList.mp defined) defines

/-! ## Mirrors -/

/-- What holds of a state when a local has the value of another wherever this is known. -/
structure Matches {V : Type} (m : Method) (x y : LocalId) (s : State V) : Prop where
  env : m.Knows s.position x → s.env x = s.env y
  entering : m.Carries s.position s.origin x → s.entering x = s.entering y

/-- Every trail that has assigned a local has assigned another one, also on the way into the block.
-/
structure ComesAfter (m : Method) (x y : LocalId) : Prop where
  assigned : ∀ position assigned origin entered, m.Trail position assigned origin entered →
    x ∈ assigned → y ∈ assigned
  entered : ∀ position assigned origin entered, m.Trail position assigned origin entered →
    x ∈ entered → y ∈ entered

/-- One local has the value of another wherever it is assigned, in every run. -/
structure Mirrors (m : Method) (x y : LocalId) : Prop where
  after : m.ComesAfter x y
  matches_ : ∀ {V : Type} (w : World V) (done : Nat) (s : State V), m.run w done = .running s →
    m.Matches x y s

namespace ComesAfter

theorem of_definition (here : ∀ position assigned origin entered,
    m.Trail position assigned origin entered → x ∈ m.definedAt position →
    (x ∈ entered → y ∈ entered) → y ∈ assigned) : m.ComesAfter x y := by
  have both : ∀ position assigned origin entered, m.Trail position assigned origin entered →
      (x ∈ assigned → y ∈ assigned) ∧ (x ∈ entered → y ∈ entered) := by
    intro position assigned origin entered trail
    induction trail with
    | start => exact ⟨nofun, nofun⟩
    | @normal position next assigned entered origin trail _ ih =>
      have onward : x ∈ m.definedAt position ++ assigned → y ∈ m.definedAt position ++ assigned := by grind
      refine ⟨onward, ?_⟩
      split
      · exact onward
      · exact ih.2
    | thrown _ _ ih =>
      refine ⟨ih.1, ?_⟩
      split
      · exact ih.1
      · exact ih.2
  exact ⟨fun p a o e trail => (both p a o e trail).1, fun p a o e trail => (both p a o e trail).2⟩

theorem refl (x : LocalId) : m.ComesAfter x x :=
  ⟨fun _ _ _ _ _ listed => listed, fun _ _ _ _ _ listed => listed⟩

theorem trans (first : m.ComesAfter x y) (second : m.ComesAfter y z) : m.ComesAfter x z :=
  ⟨fun p a o e trail listed => second.assigned p a o e trail (first.assigned p a o e trail listed),
    fun p a o e trail listed => second.entered p a o e trail (first.entered p a o e trail listed)⟩

variable (after : m.ComesAfter x y)

include after

theorem exists_without (different : x ≠ y) (trail : m.Trail position assigned origin entered)
    (listed : x ∈ assigned) : ∃ place before way earlier, m.Trail place before way earlier ∧
      y ∈ m.definedAt place ∧ x ∉ before := by
  obtain ⟨middle, next, until_, way, earlier, there, goes, defined, new, -⟩ := trail.arrival listed
  have both := after.assigned _ _ _ _ (there.normal goes) (mem_append_left _ defined)
  have already := (mem_append.mp both).resolve_left fun own =>
    different (eq_of_definedAt defined own)
  obtain ⟨place, -, before, way, earlier, first, -, own, -, sub⟩ := there.arrival already
  exact ⟨place, before, way, earlier, first, own, fun listed => new (sub listed)⟩

theorem not_knows (single : m.SingleAssignment) (different : x ≠ y)
    (found : m.actions[position]? = some a) (defines : a.defines? = some y)
    (trail : m.Trail position assigned origin entered) : ¬ m.Knows position x := by
  rintro ⟨-, always⟩
  obtain ⟨place, before, way, earlier, first, own, new⟩ :=
    after.exists_without different trail (always assigned trail.path)
  have same := single.position_eq found defines own
  subst same
  exact new (always before first.path)

end ComesAfter

/-! ## Steps -/

theorem Edge.way (tidy : m.Tidy) (edge : m.Edge position next exceptional)
    (found : m.actions[position]? = some a) :
    m.Way position next exceptional (if exceptional then none else a.defines?) := by
  cases exceptional with
  | true =>
    obtain ⟨b, here, throws, t, listed, covered, there⟩ := tidy.mem_exSuccsOf.mp edge
    exact tidy.way_thrown here throws listed covered there
  | false => exact way_of_succ found fun _ => edge

section Steps

variable {V : Type} {w : World V} {s t : State V}

section

variable (tidy : m.Tidy) (proper : m.Proper) (single : m.SingleAssignment)

include tidy proper single

theorem held_of_run {done : Nat}
    (reached : m.run w done = .running s) (inside : s.position < m.actions.length)
    (held : ∀ assigned origin entered, m.Trail s.position assigned origin entered → y ∈ entered) :
    s.entering y = s.env y := by
  induction done generalizing s with
  | zero =>
    obtain rfl := Status.running.inj reached
    cases held _ _ _ .start
  | succ done ih =>
    have step : (m.run w done).step w m = .running s := reached
    cases before : m.run w done with
    | running r =>
      rw [before] at step
      obtain ⟨a, middle, next, exceptional, stepped, rfl⟩ := exists_stepped tidy proper step
      rw [goTo_position] at inside held
      rw [goTo_entering, goTo_env]
      split
      · rfl
      next plain =>
        have edge := stepped.edge inside
        have heldBefore : ∀ assigned origin entered, m.Trail r.position assigned origin entered →
            y ∈ entered := by
          intro assigned origin entered trail
          obtain ⟨more, -, onward⟩ := edge.trail trail
          rw [if_neg plain, if_neg plain] at onward
          exact held _ _ _ onward
        have insideBefore := lt_of_get stepped.found
        rw [stepped.entering, ih before insideBefore heldBefore, stepped.kept]
        -- A trail that comes to the definition for the first time has not entered with the local.
        intro own
        have defines : a.defines? = some y := by grind
        obtain ⟨assigned, entered, trail, -⟩ := tracked_of_run tidy proper before insideBefore
        obtain ⟨place, -, earlier, way, there, first, -, defined, new, -⟩ :=
          trail.arrival (trail.entered_subset (heldBefore _ _ _ trail))
        have same := single.position_eq stepped.found defines defined
        subst same
        exact new (first.entered_subset (heldBefore _ _ _ first))
    | _ =>
      rw [before] at step
      cases step

theorem mirrors_of_definition
    (different : x ≠ y) (after : m.ComesAfter x y)
    (sets : ∀ {V : Type} (w : World V) (done : Nat) (s t : State V) (a : Action),
      m.run w done = .running s → m.Matches x y s → m.actions[s.position]? = some a →
      a.defines? = some x → s.step w m = .running t → t.env x = t.env y) : m.Mirrors x y := by
  refine ⟨after, fun w done => ?_⟩
  induction done with
  | zero =>
    intro s reached
    obtain rfl := Status.running.inj reached
    exact ⟨fun _ => rfl, fun _ => rfl⟩
  | succ done ih =>
    intro t reached
    have step : (m.run w done).step w m = .running t := reached
    cases before : m.run w done with
    | running s =>
      rw [before] at step
      have same := ih s before
      obtain ⟨a, middle, next, exceptional, stepped, rfl⟩ := exists_stepped tidy proper step
      have insideBefore := lt_of_get stepped.found
      obtain ⟨assigned, entered, trail, -⟩ := tracked_of_run tidy proper before insideBefore
      -- What is set now is set to the value of the other; what was known stays the same, since the
      -- other is not set here.
      have env : (if exceptional then none else a.defines?) = some x ∨ m.Knows s.position x →
          middle.env x = middle.env y := by
        intro which
        by_cases own : (if exceptional then none else a.defines?) = some x
        · have defines : a.defines? = some x := by grind
          have set := sets w done s _ a before same stepped.found defines step
          rwa [goTo_env] at set
        · have known := which.resolve_left own
          rw [stepped.kept x own, same.env known, stepped.kept y fun contrary => ?_]
          have defines : a.defines? = some y := by grind
          exact after.not_knows single different stepped.found defines trail known
      refine ⟨fun known => ?_, fun carried => ?_⟩
      · rw [goTo_position] at known
        rw [goTo_env]
        exact env (((stepped.edge known.1).way tidy stepped.found).known x known)
      · rw [goTo_position, goTo_origin, stepped.position, stepped.origin] at carried
        rw [goTo_entering]
        have earlier := ((stepped.edge carried.1).way tidy stepped.found).carried s.origin x carried
        split
        next enters =>
          rw [if_pos enters] at earlier
          exact env earlier
        next plain =>
          rw [if_neg plain] at earlier
          rw [stepped.entering]
          exact same.entering earlier
    | _ =>
      rw [before] at step
      cases step

end

end Steps

/-! ## Copies and joins of one value -/

namespace Mirrors

theorem refl (x : LocalId) : m.Mirrors x x :=
  ⟨.refl x, fun _ _ _ _ => ⟨fun _ => rfl, fun _ => rfl⟩⟩

theorem knows (mirrors : m.Mirrors x y) (known : m.Knows position x) : m.Knows position y :=
  ⟨known.1, fun assigned path => by
    obtain ⟨origin, entered, trail⟩ := exists_trail path
    exact mirrors.after.assigned _ _ _ _ trail (known.2 assigned path)⟩

theorem carries (mirrors : m.Mirrors x y) {way : Label × Bool} (carried : m.Carries position way x) :
    m.Carries position way y :=
  ⟨carried.1, fun assigned entered trail =>
    mirrors.after.entered _ _ _ _ trail (carried.2 assigned entered trail)⟩

theorem trans (first : m.Mirrors x y) (second : m.Mirrors y z) : m.Mirrors x z :=
  ⟨first.after.trans second.after, fun w done s reached =>
    ⟨fun known => ((first.matches_ w done s reached).env known).trans
        ((second.matches_ w done s reached).env (first.knows known)),
      fun carried => ((first.matches_ w done s reached).entering carried).trans
        ((second.matches_ w done s reached).entering (first.carries carried))⟩⟩

end Mirrors

section Rules

variable (tidy : m.Tidy) (proper : m.Proper) (single : m.SingleAssignment)

include single

section

variable (found : m.actions[position]? = some (.assign x (.read y)))

include found

theorem comesAfter_of_copy : m.ComesAfter x y := by
  refine .of_definition fun other assigned origin entered trail defined _ => ?_
  obtain rfl := single.position_eq found rfl defined
  exact single.reads other _ y found (mem_singleton.mpr rfl) assigned trail.path

theorem not_assigned_of_copy
    (after : m.ComesAfter y x) {place : Nat} (trail : m.Trail place assigned origin entered) :
    x ∉ assigned := by
  intro listed
  obtain ⟨place, -, before, way, earlier, first, -, defined, new, -⟩ := trail.arrival listed
  obtain rfl := single.position_eq found rfl defined
  exact new (after.assigned _ _ _ _ first
    (single.reads place _ y found (mem_singleton.mpr rfl) before first.path))

end

section

variable (whole : m.JoinsWhole) (found : m.actions[position]? = some (.phi x args))

include whole found

theorem exists_operand_of_phi (trail : m.Trail position assigned origin entered) :
    ∃ arg ∈ args, ¬ m.ComesAfter arg.value x := by
  by_contra none
  have all : ∀ arg ∈ args, m.ComesAfter arg.value x := by
    intro arg member
    by_contra apart
    exact none ⟨arg, member, apart⟩
  have carried : ∀ assigned origin entered, m.Trail position assigned origin entered →
      x ∈ assigned := by
    intro assigned origin entered trail
    obtain ⟨arg, picks, -⟩ := whole _ _ _ _ _ _ found trail
    exact trail.entered_subset ((all arg (picked_spec picks).1).entered _ _ _ _ trail
      (single.joins _ _ _ _ _ _ _ found trail picks))
  -- The first trail that comes to the join has not assigned what it defines.
  obtain ⟨place, -, before, way, earlier, first, -, defined, new, -⟩ :=
    trail.arrival (carried _ _ _ trail)
  obtain rfl := single.position_eq found rfl defined
  exact new (carried _ _ _ first)

/-- What a join defines comes after the one local that its operands come after, apart from those
that come after the join itself. -/
theorem comesAfter_of_phi
    (all : ∀ arg ∈ args, m.ComesAfter arg.value y ∨ m.ComesAfter arg.value x) :
    m.ComesAfter x y ∧ ∀ assigned origin entered, m.Trail position assigned origin entered →
      (x ∈ entered → y ∈ entered) → y ∈ entered := by
  have here : ∀ assigned origin entered, m.Trail position assigned origin entered →
      (x ∈ entered → y ∈ entered) → y ∈ entered := by
    intro assigned origin entered trail behind
    obtain ⟨arg, picks, -⟩ := whole _ _ _ _ _ _ found trail
    have carried := single.joins _ _ _ _ _ _ _ found trail picks
    rcases all arg (picked_spec picks).1 with other | own
    · exact other.entered _ _ _ _ trail carried
    · exact behind (own.entered _ _ _ _ trail carried)
  refine ⟨.of_definition fun other assigned origin entered trail defined behind => ?_, here⟩
  obtain rfl := single.position_eq found rfl defined
  exact trail.entered_subset (here _ _ _ trail behind)

end

include tidy proper

theorem mirrors_of_copy (different : x ≠ y)
    (found : m.actions[position]? = some (.assign x (.read y))) : m.Mirrors x y := by
  refine mirrors_of_definition tidy proper single different (comesAfter_of_copy single found)
    fun w done s t a reached _ here defines step => ?_
  have same := single.once s.position position a _ x here found defines rfl
  rw [same, found] at here
  obtain rfl := Option.some.inj here
  have unstuck : s.step w m ≠ .stuck := by
    rw [step]
    exact nofun
  obtain ⟨history, env, move, performed, stepped⟩ :=
    step_eq_of_plain (same ▸ found) rfl unstuck
  unfold Action.carryOut at performed
  dsimp only [Action.inputs, Action.parts] at performed
  rw [evaluateAll_single] at performed
  cases value : s.env y with
  | none =>
    rw [Expr.read, Expr.leaf, evaluate, value] at performed
    cases performed
  | some v =>
    rw [Expr.read, Expr.leaf, evaluate, value] at performed
    cases performed
    rw [stepped] at step
    obtain rfl := Status.running.inj step
    rw [goTo_env]
    show (s.env.set x v) x = (s.env.set x v) y
    rw [Env.set, Env.set, if_pos rfl, if_neg different.symm, value]

theorem mirrors_of_phi (whole : m.JoinsWhole) (different : x ≠ y)
    (found : m.actions[position]? = some (.phi x args))
    (all : ∀ arg ∈ args, m.Mirrors arg.value y ∨ m.Mirrors arg.value x) : m.Mirrors x y := by
  obtain ⟨after, ahead⟩ := comesAfter_of_phi single whole found fun arg member =>
    (all arg member).imp Mirrors.after Mirrors.after
  refine mirrors_of_definition tidy proper single different after
    fun w done s t a reached same here defines step => ?_
  have place := single.once s.position position a _ x here found defines rfl
  have foundHere := place ▸ found
  have unstuck : s.step w m ≠ .stuck := by
    rw [step]
    exact nofun
  obtain ⟨arg, v, picks, value, stepped⟩ := step_eq_of_phi foundHere unstuck
  have inside := lt_of_get foundHere
  have held := held_of_run (y := y) tidy proper single reached inside
    fun assigned origin entered trail =>
      ahead _ _ _ (place ▸ trail) (after.entered _ _ _ _ trail)
  have carried := single.carries foundHere picks
  have entering : s.entering arg.value = s.entering y := by
    rcases all arg (picked_spec picks).1 with other | own
    · exact (other.matches_ w done s reached).entering carried
    · exact ((own.matches_ w done s reached).entering carried).trans
        (same.entering (own.carries carried))
  rw [stepped] at step
  obtain rfl := Status.running.inj step
  rw [goTo_env]
  show (s.env.set x v) x = (s.env.set x v) y
  rw [Env.set, Env.set, if_pos rfl, if_neg different.symm, ← held, ← entering, value]

end Rules

end DexLift.Ir.Method
