import DexLift.Proofs.Ir.Sifting
import DexLift.Proofs.Ir.Walking

/-!
# Runs of bodies with silent statements taken out

The run of the longer body goes ahead: after each step it passes over what was
taken out, up to the next statement that stays. There the shorter body stands,
too. Both have made the same requests, and of the locals that stay they have the
same values wherever these can matter: locals that the position knows, and where
a join is ahead, what was on the way into the block.
-/

namespace DexLift.Ir

open List State

variable {a : Action} {exceptional : Bool} {own : Option LocalId}

variable {V : Type} {w : World V}

/-! ## Quiet statements -/

/-- Whether a statement does no more than set its local: joins, and definitions whose value does not
throw. -/
def Action.isQuiet : Action → Bool
  | .phi .. => true
  | .assign _ e | .identity _ e => !e.canThrow
  | _ => false

theorem Action.plain_of_isQuiet (quiet : a.isQuiet = true) :
    a.label? = none ∧ a.endsBlock = false := by
  cases a with
  | phi | assign | identity => exact ⟨rfl, rfl⟩
  | _ => cases quiet

theorem Expr.Proper.evaluate_of_quiet {e : Expr} (proper : e.Proper) (quiet : e.canThrow = false)
    {env : Env V} {caught : Option V} {history : History V} {r : History V × Except V V}
    (done : evaluate w env caught history e = some r) : ∃ v, r = (history, .ok v) := by
  induction proper generalizing history r with
  | @leaf head isLeaf =>
    cases head with
    | read | caught =>
      rw [Expr.leaf, evaluate, Option.map_eq_some_iff] at done
      obtain ⟨v, -, rfl⟩ := done
      exact ⟨v, rfl⟩
    | missing | this | param =>
      cases done
      exact ⟨_, rfl⟩
    | _ => cases isLeaf
  | @inner head args inner _ ih =>
    rw [canThrow_inner inner, Bool.or_eq_false_iff] at quiet
    have all : ∀ {es : List Expr}, es ⊆ args → ∀ {history : History V} {r},
        evaluateAll w env caught history es = some r → ∃ vs, r = (history, .ok vs) := by
      intro es sub
      induction es with
      | nil =>
        intro history r done
        cases done
        exact ⟨[], rfl⟩
      | cons e rest restHypothesis =>
        intro history r done
        have member := sub mem_cons_self
        have own : e.canThrow = false := by
          simpa using any_eq_false.mp quiet.2 e member
        rw [evaluateAll_cons] at done
        rcases first : evaluate w env caught history e with _ | r'
        · rw [first] at done
          cases done
        · obtain ⟨v, rfl⟩ := ih e member own first
          rw [first, andThen_ok] at done
          rcases others : evaluateAll w env caught history rest with _ | r'
          · rw [others] at done
            cases done
          · obtain ⟨vs, rfl⟩ := restHypothesis (subset_of_cons_subset sub) others
            rw [others] at done
            cases done
            exact ⟨v :: vs, rfl⟩
    rw [evaluate_inner inner] at done
    rcases values : evaluateAll w env caught history args with _ | r'
    · rw [values] at done
      cases done
    · obtain ⟨vs, rfl⟩ := all (Subset.refl args) values
      rw [values, andThen_ok, World.compute, if_neg (by simp [quiet.1])] at done
      cases done
      exact ⟨_, rfl⟩

variable {s : State V}

theorem State.step_of_isQuiet {m : Method} (found : m.actions[s.position]? = some a)
    (proper : a.Proper) (quiet : a.isQuiet = true) (unstuck : s.step w m ≠ .stuck) :
    ∃ v caught, (∀ u, caught = some u → s.caught = some u) ∧ s.step w m =
      .running ({ s with env := s.env.define a.defines? v, caught }.goTo m (s.position + 1) false) := by
  have plain : ∀ e : Expr, a.isPhi = false → a.isLabel = false → a.inputs = [e] → e.Proper →
      e.canThrow = false → (∀ history v, a.conclude w history [v] = (history, some v, .next)) →
      ∃ v caught, (∀ u, caught = some u → s.caught = some u) ∧ s.step w m = .running
        ({ s with env := s.env.define a.defines? v, caught }.goTo m (s.position + 1) false) := by
    intro e single notLabel inputs properValue quietValue concludes
    obtain ⟨history, env, move, done, step⟩ := step_eq_of_plain found single unstuck
    unfold Action.carryOut at done
    rw [inputs, evaluateAll_single] at done
    rcases value : evaluate w s.env s.caught s.history e with _ | r
    · rw [value] at done
      cases done
    · obtain ⟨v, rfl⟩ := properValue.evaluate_of_quiet quietValue value
      rw [value, andThen_ok] at done
      simp only [concludes] at done
      cases done
      rw [notLabel] at step
      exact ⟨some v, none, fun _ contrary => (nomatch contrary), step⟩
  cases a with
  | phi target args =>
    obtain ⟨arg, v, -, -, step⟩ := step_eq_of_phi found unstuck
    exact ⟨some v, s.caught, fun _ same => same, step⟩
  | assign target e | identity target e =>
    exact plain e rfl rfl rfl (proper e mem_cons_self) (by simpa [Action.isQuiet] using quiet)
      fun _ _ => rfl
  | _ => cases quiet

variable {after : State V}

namespace Method.Sifts

variable {m n : Method} {keep : StmtId → Bool}

/-! ## Passing over -/

/-- How a run stands behind what it has passed over. -/
structure Passed (m : Method) (keep : StmtId → Bool) (s : State V) (other : Nat) (t : State V) :
    Prop where
  position : t.position = other
  history : t.history = s.history
  caught : ∀ v, t.caught = some v → s.caught = some v
  env : ∀ x, m.Survives keep x → t.env x = s.env x
  origin : t.origin =
    if s.position < other ∧ m.enters other = true then (m.blockAt (other - 1), false) else s.origin
  entering : t.entering =
    if s.position < other ∧ m.enters other = true then t.env else s.entering

theorem passOver (proper : m.Proper)
    (quiet : ∀ id ∈ m.order.toList, keep id = false → (m.action id).isQuiet = true) {other : Nat}
    (le : s.position ≤ other) (inside : other ≤ m.order.toList.length)
    (gone : ∀ i id, s.position ≤ i → i < other → m.order.toList[i]? = some id → keep id = false) :
    ∃ count status, Leads w m count (.running s) status ∧
      (status = .stuck ∨ ∃ t, status = .running t ∧ Passed m keep s other t) := by
  induction other, le using Nat.le_induction with
  | base =>
    refine ⟨0, _, Leads.refl _, .inr ⟨s, rfl, rfl, rfl, fun _ same => same, fun _ _ => rfl, ?_, ?_⟩⟩
    · rw [if_neg fun both => lt_irrefl _ both.1]
    · rw [if_neg fun both => lt_irrefl _ both.1]
  | succ i le ih =>
    obtain ⟨count, status, walk, ended⟩ := ih (Nat.le_of_succ_le inside)
      fun j id low high => gone j id low (Nat.lt_succ_of_lt high)
    rcases ended with rfl | ⟨t, rfl, passed⟩
    · exact ⟨count, _, walk, .inl rfl⟩
    by_cases unstuck : t.step w m = .stuck
    · exact ⟨count + 1, _, walk.trans (Leads.one unstuck), .inl rfl⟩
    have here := getElem?_eq_getElem (Nat.lt_of_succ_le inside)
    have goes := gone i _ le (Nat.lt_succ_self i) here
    have found := getElem?_actions (m := m) here
    have isQuiet := quiet _ (mem_of_getElem? here) goes
    have plain : m.enters i = false := enters_of_plain found (Action.plain_of_isQuiet isQuiet).1
    obtain ⟨v, caught, fewer, step⟩ := step_of_isQuiet (w := w)
      (passed.position.symm ▸ found) (proper.operands _ (mem_of_getElem? found)) isQuiet unstuck
    refine ⟨count + 1, _, walk.trans (Leads.one step), .inr ⟨_, rfl, ?_, ?_, ?_, ?_, ?_, ?_⟩⟩
    · rw [goTo_position, passed.position]
    · rw [goTo_history]
      exact passed.history
    · rw [goTo_caught]
      exact fun u same => passed.caught u (fewer u same)
    · intro x survives
      rw [goTo_env]
      refine (Env.define_of_ne ?_ v).trans (passed.env x survives)
      exact survives _ (mem_of_getElem? here) goes
    · rw [goTo_origin, passed.position, passed.origin]
      simp [Nat.lt_succ_of_le le, plain]
    · rw [goTo_entering, passed.position, passed.entering, goTo_env]
      simp [Nat.lt_succ_of_le le, plain]

/-! ## Landing -/

variable (sifts : m.Sifts n keep)

/-- From one statement that stays to the next: what is known or carried there, of the locals that
stay, and by which way the block of a join ahead was entered. -/
structure Lands (m n : Method) (keep : StmtId → Bool) (position next out : Nat) (exceptional : Bool)
    (own : Option LocalId) : Prop where
  known : ∀ x, m.Survives keep x → m.Knows next x → own = some x ∨ m.Knows position x
  carried : ∀ way x, m.Survives keep x →
    m.Carries next (if m.enters next then (m.blockAt out, exceptional) else way) x →
      if m.enters next then own = some x ∨ m.Knows position x else m.Carries position way x
  ahead : n.Ahead (rank keep m.order.toList next) →
    if n.enters (rank keep m.order.toList next) then
      m.enters next = true ∧ n.blockAt (rank keep m.order.toList position) = m.blockAt out
    else m.enters next ≠ true ∧ n.Ahead (rank keep m.order.toList position)

section Lands

variable {position next : Nat} {id : StmtId} {assigned entered : List LocalId}
  {origin : Label × Bool}

include sifts

theorem lands_next (whole : m.JoinsWhole) (trail : m.Trail position assigned origin entered)
    (here : m.order.toList[position]? = some id) (stays : keep id = true)
    (falls : (m.action id).fallsThrough = true)
    (staysNext : ∀ id, m.order.toList[next]? = some id → keep id = true)
    (rankNext : rank keep m.order.toList next = rank keep m.order.toList position + 1) :
    Lands m n keep position next (next - 1) false (m.action id).defines? := by
  have before : position < m.actions.length :=
    (List.getElem?_eq_some_iff.mp (getElem?_actions here)).1
  have length : m.actions.length = m.order.toList.length := length_map ..
  -- What every trail to the next statement has assigned, every trail to this one has, or it is own.
  have split : ∀ x, (∀ assigned origin entered, m.Trail position assigned origin entered →
      x ∈ m.definedAt position ++ assigned) →
      (m.action id).defines? = some x ∨ m.Knows position x := by
    intro x always
    by_cases own : (m.action id).defines? = some x
    · exact .inl own
    · refine .inr ⟨before, assigns_iff.mpr fun assigned way entered trail => ?_⟩
      have member := always assigned way entered trail
      rw [definedAt_eq (getElem?_actions here)] at member
      rcases mem_append.mp member with defined | earlier
      · exact absurd (Option.mem_toList.mp defined) own
      · exact earlier
  refine ⟨fun x survives ⟨inside, always⟩ => ?_, fun way x survives ⟨inside, always⟩ => ?_,
    fun ahead => ?_⟩
  · refine split x fun assigned origin entered trail => ?_
    obtain ⟨-, later, more, fewer⟩ :=
      sifts.onward_next trail here stays falls (length ▸ inside) rankNext
    exact fewer x survives (always _ more.path)
  · by_cases enters : m.enters next = true
    · rw [if_pos enters] at always ⊢
      refine split x fun assigned origin entered trail => ?_
      obtain ⟨-, later, more, fewer⟩ :=
        sifts.onward_next trail here stays falls (length ▸ inside) rankNext
      rw [if_pos enters, if_pos enters] at more
      exact fewer x survives (always _ _ more)
    · rw [if_neg enters] at always ⊢
      refine ⟨before, fun assigned entered trail => ?_⟩
      obtain ⟨-, later, more, -⟩ :=
        sifts.onward_next trail here stays falls (length ▸ inside) rankNext
      rw [if_neg enters, if_neg enters] at more
      exact always _ _ more
  · have inside : next < m.order.toList.length := by
      by_contra outside
      have last : rank keep m.order.toList next = n.actions.length := by
        rw [rank, take_of_length_le (Nat.le_of_not_lt outside), countP_eq_length_filter,
          ← sifts.order, actions, length_map]
      have inside := ahead.inside
      omega
    have there := getElem?_eq_getElem inside
    have stayNext := staysNext _ there
    obtain ⟨less, later, more, -⟩ := sifts.onward_next trail here stays falls inside rankNext
    split
    next enters =>
      exact sifts.entered_from whole here stays (Nat.le_sub_one_of_lt less) (by omega)
        (fun i id' low high between => gone_between here stays rankNext low (by omega) between)
        there stayNext more ahead enters
    next plain =>
      exact sifts.ahead_before here stays falls there stayNext rankNext ahead plain

theorem lands_label (whole : m.JoinsWhole) (here : m.order.toList[position]? = some id)
    (stays : keep id = true) (way : m.Way position next exceptional own) {l : Label}
    (there : m.find? l = some next)
    (trail : m.Trail next assigned
      (if m.enters next then (m.blockAt position, exceptional) else origin) entered) :
    Lands m n keep position next position exceptional own := by
  obtain ⟨idNext, hereNext, label⟩ := exists_order (sifts.tidy.find?_eq_some.mp there)
  refine ⟨fun x _ => way.known x, fun w x _ => way.carried w x, fun ahead => ?_⟩
  have enters := ahead.enters sifts.tidyTarget
    (sifts.tidyTarget.find?_eq_some.mp (sifts.find?_rank there))
  rw [if_pos enters]
  exact sifts.entered_from whole here stays le_rfl (lt_of_get here)
    (fun i id' low high _ => absurd low (Nat.not_lt.mpr high)) hereNext
    (sifts.stays_of_label hereNext label) trail ahead enters

end Lands

/-! ## States side by side -/

/-- How the states of both runs belong together: they stand at the same statement, or behind the
last one. -/
structure Related (m n : Method) (keep : StmtId → Bool) (s t : State V) : Prop where
  stays : ∀ id, m.order.toList[s.position]? = some id → keep id = true
  position : t.position = rank keep m.order.toList s.position
  history : t.history = s.history
  caught : ∀ v, s.caught = some v → t.caught = some v
  env : ∀ x, m.Survives keep x → m.Knows s.position x → t.env x = s.env x
  ahead : n.Ahead t.position → t.origin = s.origin ∧
    ∀ x, m.Survives keep x → m.Carries s.position s.origin x → t.entering x = s.entering x

/-- Both runs land at a statement that stays. -/
theorem Lands.related {t g : State V} {next out : Nat}
    (lands : Lands m n keep s.position next out exceptional own) (related : Related m n keep s t)
    (stays : ∀ id, m.order.toList[next]? = some id → keep id = true) (position : g.position = next)
    (origin : g.origin = if m.enters next then (m.blockAt out, exceptional) else s.origin)
    (entering : ∀ x, m.Survives keep x →
      g.entering x = if m.enters next then g.env x else s.entering x)
    (history : after.history = g.history) (caught : ∀ v, g.caught = some v → after.caught = some v)
    (env : ∀ x, m.Survives keep x → own = some x ∨ m.Knows s.position x → after.env x = g.env x)
    (position_ : after.position = t.position) (origin_ : after.origin = t.origin)
    (entering_ : after.entering = t.entering) :
    Related m n keep g (after.goTo n (rank keep m.order.toList next) exceptional) := by
  subst position
  refine ⟨stays, goTo_position .., by rwa [goTo_history], ?_, ?_, ?_⟩
  · rwa [goTo_caught]
  · intro x survives known
    rw [goTo_env]
    exact env x survives (lands.known x survives known)
  · rw [goTo_position, goTo_origin, goTo_entering, position_, related.position, origin]
    intro ahead
    have landed := lands.ahead ahead
    split at landed
    next enters =>
      obtain ⟨entersHere, block⟩ := landed
      rw [if_pos enters, if_pos enters, if_pos entersHere, block]
      refine ⟨rfl, fun x survives carried => ?_⟩
      rw [entering x survives, if_pos entersHere]
      have before := lands.carried s.origin x survives (by rwa [if_pos entersHere])
      rw [if_pos entersHere] at before
      exact env x survives before
    next plain =>
      obtain ⟨plainHere, aheadBefore⟩ := landed
      rw [← related.position] at aheadBefore
      obtain ⟨sameOrigin, sameEntering⟩ := related.ahead aheadBefore
      rw [if_neg plain, if_neg plain, if_neg plainHere, origin_, entering_]
      refine ⟨sameOrigin, fun x survives carried => ?_⟩
      rw [entering x survives, if_neg plainHere]
      have before := lands.carried s.origin x survives (by rwa [if_neg plainHere])
      rw [if_neg plainHere] at before
      exact sameEntering x survives before

/-! ## Steps -/

/-- A statement that stays does what it did: with what it knows of the locals that stay it computes
the same, and as a join it picks the same value. -/
structure Echoes (w : World V) (m n : Method) (keep : StmtId → Bool) (s : State V) (id : StmtId) :
    Prop where
  evaluates : (m.action id).isPhi = false → ∀ (env : Env V) (caught : Option V),
    (∀ x, m.Survives keep x → m.Knows s.position x → env x = s.env x) →
    (∀ v, s.caught = some v → caught = some v) →
    ∀ r, evaluateAll w s.env s.caught s.history (m.action id).inputs = some r →
      evaluateAll w env caught s.history (n.action id).inputs = some r
  concludes : ∀ history values,
    (n.action id).conclude w history values = (m.action id).conclude w history values
  picks : ∀ arg v, picked s.origin (m.action id).phiArgs = some arg → s.entering arg.value = some v →
    ∃ other, picked s.origin (n.action id).phiArgs = some other ∧ m.Survives keep other.value ∧
      m.Carries s.position s.origin other.value ∧ s.entering other.value = some v

section Steps

variable {s t : State V} {id : StmtId}

include sifts

/-- Behind a statement that control goes on from, the run of the longer body passes over what was
taken out. -/
theorem goesOn (proper : m.Proper) (whole : m.JoinsWhole)
    (quiet : ∀ id ∈ m.order.toList, keep id = false → (m.action id).isQuiet = true)
    (tracked : s.Tracked m) (related : Related m n keep s t)
    (here : m.order.toList[s.position]? = some id) (falls : (m.action id).fallsThrough = true)
    {middle : State V} (position : middle.position = s.position) (origin : middle.origin = s.origin)
    (entering : middle.entering = s.entering) (position_ : after.position = t.position)
    (origin_ : after.origin = t.origin) (entering_ : after.entering = t.entering)
    (history : after.history = middle.history)
    (caught : ∀ v, middle.caught = some v → after.caught = some v)
    (env : ∀ x, m.Survives keep x → (m.action id).defines? = some x ∨ m.Knows s.position x →
      after.env x = middle.env x) :
    ∃ count status, Leads w m count (.running (middle.goTo m (s.position + 1) false)) status ∧
      Beside (Related m n keep) status (.running (after.goTo n (t.position + 1) false)) := by
  have stays := related.stays id here
  have inside := lt_of_get here
  obtain ⟨next, le, bound, gone, staysNext⟩ := exists_next keep (Nat.succ_le_of_lt inside)
  have rankNext : rank keep m.order.toList next = rank keep m.order.toList s.position + 1 := by
    rw [rank_eq_of_gone le gone, rank_succ_of_kept here stays]
  obtain ⟨count, status, walk, ended⟩ := passOver (w := w) proper quiet
    (s := middle.goTo m (s.position + 1) false) (by rwa [goTo_position]) bound
    (by rwa [goTo_position])
  refine ⟨count, status, walk, ?_⟩
  rcases ended with rfl | ⟨g, rfl, passed⟩
  · exact .stuck _
  obtain ⟨assigned, entered, trail, -⟩ :=
    tracked (List.getElem?_eq_some_iff.mp (getElem?_actions here)).1
  have lands := sifts.lands_next whole trail here stays falls staysNext rankNext
  have plain : s.position + 1 < next → m.enters (s.position + 1) = false := by
    intro further
    have between := getElem?_eq_getElem (l := m.order.toList) (i := s.position + 1) (by omega)
    exact (sifts.silent_runs between (gone _ _ (Nat.le_refl _) further between)).1
  obtain ⟨positionG, historyG, caughtG, envG, originG, enteringG⟩ := passed
  rw [goTo_position] at originG enteringG
  rw [related.position, ← rankNext]
  refine .running (lands.related related staysNext positionG ?_ ?_ ?_ ?_ ?_ position_ origin_
    entering_)
  · rw [originG, goTo_origin, origin, position]
    rcases Nat.eq_or_lt_of_le le with rfl | further
    · simp
    · simp [further, plain further]
  · intro x survives
    rw [enteringG, goTo_entering, entering]
    rcases Nat.eq_or_lt_of_le le with same | further
    · subst same
      rw [if_neg fun both => Nat.lt_irrefl _ both.1]
      split
      · rw [envG x survives, goTo_env]
      · rfl
    · simp only [further, plain further, true_and, Bool.false_eq_true, if_false]
      split <;> rfl
  · rw [historyG, goTo_history, history]
  · intro v same
    have before := caughtG v same
    rw [goTo_caught] at before
    exact caught v before
  · intro x survives which
    rw [envG x survives, goTo_env]
    exact env x survives which

/-- Both runs go to a label. -/
theorem goesTo (whole : m.JoinsWhole) (related : Related m n keep s t)
    (here : m.order.toList[s.position]? = some id) {next : Nat}
    (way : m.Way s.position next exceptional own) {l : Label} (there : m.find? l = some next)
    {assigned entered : List LocalId} {origin : Label × Bool}
    (trail : m.Trail next assigned
      (if m.enters next then (m.blockAt s.position, exceptional) else origin) entered)
    {middle : State V} (position : middle.position = s.position)
    (sameOrigin : middle.origin = s.origin) (entering : middle.entering = s.entering)
    (position_ : after.position = t.position) (origin_ : after.origin = t.origin)
    (entering_ : after.entering = t.entering) (history : after.history = middle.history)
    (caught : ∀ v, middle.caught = some v → after.caught = some v)
    (env : ∀ x, m.Survives keep x → own = some x ∨ m.Knows s.position x →
      after.env x = middle.env x) :
    Related m n keep (middle.goTo m next exceptional)
      (after.goTo n (rank keep m.order.toList next) exceptional) := by
  have lands := sifts.lands_label whole here (related.stays id here) way there trail
  obtain ⟨idNext, hereNext, label⟩ := exists_order (sifts.tidy.find?_eq_some.mp there)
  refine lands.related related (fun other same => ?_) (goTo_position ..) ?_ (fun x _ => ?_) ?_
    ?_ (fun x survives which => ?_) position_ origin_ entering_
  · rw [← Option.some.inj (hereNext.symm.trans same)]
    exact sifts.stays_of_label hereNext label
  · rw [goTo_origin, position, sameOrigin]
  · rw [goTo_entering, goTo_env, entering]
    split <;> rfl
  · rw [goTo_history, history]
  · rwa [goTo_caught]
  · rw [goTo_env]
    exact env x survives which

section

variable (proper : m.Proper) (whole : m.JoinsWhole)
  (quiet : ∀ id ∈ m.order.toList, keep id = false → (m.action id).isQuiet = true)

include proper whole quiet

theorem step_related (tracked : s.Tracked m) (related : Related m n keep s t)
    (echoes : ∀ id, m.order.toList[s.position]? = some id → keep id = true →
      Echoes w m n keep s id) : MadeUp w (Related m n keep) (fun _ => 0) m n s t := by
  by_cases unstuck : s.step w m = .stuck
  · exact ⟨1, _, Leads.one unstuck, .stuck _, by omega⟩
  cases here : m.order.toList[s.position]? with
  | none =>
    refine absurd ?_ unstuck
    have nothing : m.actions[s.position]? = none := by
      rw [actions, getElem?_map, here]
      rfl
    unfold step
    rw [nothing]
  | some id =>
    have stays := related.stays id here
    have found := getElem?_actions (m := m) here
    obtain ⟨foundThere, form⟩ := sifts.kept here stays
    rw [← related.position] at foundThere
    obtain ⟨evaluates, concludes, picks⟩ := echoes id here stays
    cases joins : (m.action id).isPhi with
    | true =>
      have joinsThere := form.isPhi.trans joins
      cases action : m.action id with
      | phi target args =>
        cases actionThere : n.action id with
        | phi target' args' =>
          rw [action] at found
          rw [actionThere] at foundThere
          have same : target' = target := by
            have defines := form.defines
            rw [action, actionThere] at defines
            exact Option.some.inj defines
          subst same
          obtain ⟨arg, v, picked, value, step⟩ := step_eq_of_phi found unstuck
          obtain ⟨other, pickedThere, survives, carried, valueThere⟩ :=
            picks arg v (by rwa [action]) value
          rw [actionThere] at pickedThere
          obtain ⟨sameOrigin, sameEntering⟩ := related.ahead (ahead_of_phi foundThere)
          have stepThere := step_phi w foundThere (v := v) (by
            rw [incoming, sameOrigin]
            refine Option.bind_eq_some_iff.mpr ⟨other, pickedThere, ?_⟩
            rw [sameEntering _ survives carried, valueThere])
          let middle : State V := { s with env := s.env.set target' v }
          let after : State V := { t with env := t.env.set target' v }
          obtain ⟨count, status, walk, beside⟩ := sifts.goesOn (w := w) proper whole quiet tracked
            related here (by rw [action]; rfl) (rfl : middle.position = s.position) rfl rfl
            (rfl : after.position = t.position) rfl rfl related.history
            related.caught fun x survives which => by
              refine @Env.define_eq V s.env t.env (some target') (some v) x ?_
              rw [action] at which
              exact which.imp (fun own => ⟨own, rfl⟩) (related.env x survives)
          exact ⟨1 + count, status, (Leads.one step).trans walk, stepThere ▸ beside, by omega⟩
        | _ =>
          rw [actionThere] at joinsThere
          cases joinsThere
      | _ =>
        rw [action] at joins
        cases joins
    | false =>
      obtain ⟨history, env, move, done, step⟩ := step_eq_of_plain found joins unstuck
      have sameValues : ∀ r, evaluateAll w s.env s.caught s.history (m.action id).inputs = some r →
          evaluateAll w t.env t.caught t.history (n.action id).inputs = some r := by
        intro r values
        rw [related.history]
        exact evaluates joins _ _ related.env related.caught r values
      obtain ⟨v, rfl, doneThere, given⟩ :=
        Action.carryOut_transfer joins done sameValues concludes form.defines
      have stepThere := step_of_carryOut foundThere (form.isPhi.trans joins) doneThere
      have sameLabel : (n.action id).isLabel = (m.action id).isLabel := by
        rw [Action.isLabel, Action.isLabel, form.label]
      rw [sameLabel] at stepThere
      have caught : ∀ v, (if (m.action id).isLabel = true then s.caught else none) = some v →
          (if (m.action id).isLabel = true then t.caught else none) = some v := by
        intro v
        split
        · exact related.caught v
        · exact fun same => same
      have env : ∀ x, m.Survives keep x → m.Knows s.position x →
          t.env.define (m.action id).defines? v x = s.env.define (m.action id).defines? v x :=
        fun x survives known => Env.define_eq (.inr (related.env x survives known))
      obtain ⟨assigned, entered, trail, -⟩ := tracked (lt_of_get found)
      cases move with
      | next =>
        obtain ⟨falls, -, -⟩ := Action.carryOut_next joins done
        let middle : State V := { s with
          history, env := s.env.define (m.action id).defines? v
          caught := if (m.action id).isLabel then s.caught else none }
        let after : State V := { t with
          history, env := t.env.define (m.action id).defines? v
          caught := if (m.action id).isLabel then t.caught else none }
        obtain ⟨count, status, walk, beside⟩ := sifts.goesOn (w := w) proper whole quiet tracked
          related here falls (rfl : middle.position = s.position) rfl rfl
          (rfl : after.position = t.position) rfl rfl rfl caught fun x survives which =>
            Env.define_eq (which.imp (fun own => ⟨own, given rfl x own⟩) (related.env x survives))
        exact ⟨1 + count, status, (Leads.one step).trans walk, stepThere ▸ beside, by omega⟩
      | jump l =>
        obtain ⟨target, -, none⟩ := Action.carryOut_jump done
        refine ⟨1, _, Leads.one step, ?_, by omega⟩
        rw [stepThere]
        simp only [follow]
        cases there : m.find? l with
        | none => exact .stuck _
        | some next =>
          rw [sifts.find?_rank there]
          have way := sifts.tidy.way_jump found target there
          have more := trail.normal (sifts.tidy.mem_succsOf.mpr ⟨_, found, .inr ⟨l, target, there⟩⟩)
          refine .running (sifts.goesTo whole related here way there more rfl rfl rfl rfl rfl rfl rfl
            caught fun x survives which => ?_)
          rw [none] at which
          exact env x survives (which.resolve_left (Option.some_ne_none x).symm)
      | finish v' =>
        refine ⟨1, _, Leads.one step, ?_, by omega⟩
        rw [stepThere]
        exact .returned v' history
      | raise x =>
        have throws := (proper.canThrow_of_raise (mem_of_getElem? found) done).1
        refine ⟨1, _, Leads.one step, ?_, by omega⟩
        rw [stepThere]
        have sameTrap : n.trapFor? w x t.position = m.trapFor? w x s.position := by
          unfold trapFor?
          rw [sifts.traps, related.position]
          refine congrArg (fun p => m.traps.find? p) (funext fun trap => ?_)
          rw [sifts.covered_rank here stays]
        simp only [follow, sameTrap]
        cases takes : m.trapFor? w x s.position with
        | none => exact .uncaught x history
        | some trap =>
          obtain ⟨listed, covers⟩ := trapFor?_spec takes
          dsimp only
          cases there : m.find? trap.handler with
          | none => exact .stuck _
          | some next =>
            rw [sifts.find?_rank there]
            have way := sifts.tidy.way_thrown found throws listed covers there
            have more := trail.thrown (sifts.tidy.mem_exSuccsOf.mpr
              ⟨_, found, throws, trap, listed, covers, there⟩)
            exact .running (sifts.goesTo whole related here way there more rfl rfl rfl rfl rfl rfl rfl
              (fun _ same => same) fun x survives which =>
                env x survives (which.resolve_left (Option.some_ne_none x).symm))

/-- The run of the shorter body starts beside that of the longer one when this has passed over what
was taken out at the beginning. -/
theorem related_start :
    ∃ count status, Leads w m count (.running .start) status ∧
      Beside (Related m n keep) status (.running .start) := by
  obtain ⟨next, -, bound, gone, staysNext⟩ :=
    exists_next keep (Nat.zero_le m.order.toList.length)
  obtain ⟨count, status, walk, ended⟩ := passOver (w := w) proper quiet
    (s := .start) (Nat.zero_le next) bound gone
  refine ⟨count, status, walk, ?_⟩
  rcases ended with rfl | ⟨g, rfl, passed⟩
  · exact .stuck _
  have first : rank keep m.order.toList next = 0 := rank_eq_of_gone (Nat.zero_le _) gone
  refine .running ⟨passed.position ▸ staysNext, ?_, passed.history.symm, ?_, ?_, fun ahead => ?_⟩
  · rw [passed.position, first]
    rfl
  · intro v same
    cases passed.caught v same
  · exact fun x survives _ => (passed.env x survives).symm
  · refine absurd ahead ?_
    have inside : next < m.order.toList.length := by
      by_contra outside
      have last : rank keep m.order.toList next = n.actions.length := by
        rw [rank, take_of_length_le (Nat.le_of_not_lt outside), countP_eq_length_filter,
          ← sifts.order, actions, length_map]
      have within := ahead.inside
      rw [← last, first] at within
      exact absurd within (Nat.not_lt_zero _)
    have there := getElem?_eq_getElem inside
    exact sifts.not_ahead_start whole there (staysNext _ there) first

end

end Steps

theorem takesPlace (sifts : m.Sifts n keep) (proper : m.Proper) (whole : m.JoinsWhole)
    (quiet : ∀ id ∈ m.order.toList, keep id = false → (m.action id).isQuiet = true)
    (echoes : ∀ done s id, m.run w done = .running s → m.order.toList[s.position]? = some id →
      keep id = true → Echoes w m n keep s id) :
    m.TakesPlace w (Related m n keep) n := by
  obtain ⟨count, status, walk, beside⟩ := sifts.related_start (w := w) proper whole quiet
  have start : Beside (Related m n keep) (m.run w count) (n.run w 0) := by
    rwa [← Nat.zero_add count, walk.run rfl]
  refine takesPlace_of_step w (fun _ => 0) start fun s t done k reached _ related => ?_
  exact sifts.step_related proper whole quiet (tracked_of_run sifts.tidy proper reached) related
    fun id => echoes done s id reached

end Method.Sifts

end DexLift.Ir
