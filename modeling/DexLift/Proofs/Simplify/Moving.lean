import DexLift.Proofs.Ir.Trails
import DexLift.Proofs.Ir.Walking
import DexLift.Proofs.Simplify.Folding

/-!
# Runs with a value written where it is read

The run of the new body goes beside the run of the old one. Away from the
definition and its reader both make the same steps. A pure value is computed by
the old run alone, ahead of the other; it is the same when the reader computes it
later. With any other value the old run waits in front of the definition until
the new one has come to the reader: what it passes over is pure, so the old run
can catch up with all of it once the value is there, and when computing the value
throws, both throw.
-/

namespace DexLift.Ir

open List State Ir.Action

variable {V : Type} {w : World V}

/-! ## Carrying out -/

section CarryOut

variable {env : Env V} {caught : Option V} {history after : History V}

theorem evaluateAll_replaceLocal {es : List Expr} (proper : ∀ e ∈ es, e.Proper) {l : LocalId}
    {value : Expr} {v : V}
    (stands : ∀ history, evaluate w env caught history value = some (history, .ok v)) :
    evaluateAll w env caught history (es.map (Expr.replaceLocal l value)) =
      evaluateAll w (env.set l v) caught history es := by
  induction es generalizing history with
  | nil => rfl
  | cons e rest ih =>
    rw [map_cons, evaluateAll_cons, evaluateAll_cons,
      (proper e mem_cons_self).evaluate_replaceLocal stands]
    refine andThen_congr fun middle _ _ => ?_
    rw [ih fun other member => proper other (.tail _ member)]

theorem Action.carryOut_assign {l : LocalId} {e : Expr} {v : V}
    (value : evaluate w env caught history e = some (after, .ok v)) :
    (assign l e).carryOut w env caught history = some (after, env.set l v, .next) := by
  unfold carryOut
  rw [show (assign l e).inputs = [e] from rfl, evaluateAll_single, value]
  rfl

theorem Action.carryOut_assign_error {l : LocalId} {e : Expr} {x : V}
    (failed : evaluate w env caught history e = some (after, .error x)) :
    (assign l e).carryOut w env caught history = some (after, env, .raise x) := by
  unfold carryOut
  rw [show (assign l e).inputs = [e] from rfl, evaluateAll_single, failed]
  rfl

theorem Action.carryOut_of_isPure {a : Action} (pure : a.isPure = true) (proper : a.Proper)
    (set : ∀ x ∈ a.uses, (env x).isSome) :
    ∃ v, (∀ l, a.defines? = some l → v.isSome) ∧
      ∀ other : Env V, (∀ x ∈ a.uses, other x = env x) → ∀ caught history,
        a.carryOut w other caught history = some (history, other.define a.defines? v, .next) := by
  cases a with
  | nop =>
    refine ⟨none, fun _ contrary => ?_, fun _ _ _ _ => rfl⟩
    cases contrary
  | assign l e =>
    have uses : (assign l e).uses = e.uses := by
      rw [uses_eq]
      simp [parts]
    rw [uses] at set ⊢
    have properValue : e.Proper := proper e mem_cons_self
    obtain ⟨v, value⟩ := properValue.evaluate_pure (w := w) pure set
    refine ⟨some v, fun _ _ => rfl, fun other same caught history => carryOut_assign ?_⟩
    exact properValue.evaluate_mono (fun x read u set => (same x read).trans set)
      (fun _ _ set => set) (value history caught)
  | _ => cases pure

end CarryOut

theorem State.Tracked.leads {m : Method} (tidy : m.Tidy) (proper : m.Proper) {count : Nat}
    {s t : State V} (tracked : s.Tracked m)
    (walk : Leads w m count (.running s) (.running t)) : t.Tracked m := by
  induction count generalizing t with
  | zero =>
    obtain rfl := Status.running.inj walk
    exact tracked
  | succ count ih =>
    rw [Leads, Function.iterate_succ_apply'] at walk
    cases before : (Status.step w m)^[count] (.running s) with
    | running middle =>
      rw [before] at walk
      exact (ih before).step tidy proper walk
    | _ =>
      rw [before] at walk
      cases walk

/-! ## What the two runs have come to -/

/-- Both runs have come to a statement away from the definition and its reader, or in front of the
definition. -/
structure Fold.Arrived (f : Fold) (source : Method) (s t : State V) : Prop where
  apart : t.position ≤ f.place ∨ f.place + f.gap < t.position
  position : s.position = if t.position ≤ f.place then t.position else t.position + 1
  alike : s.Alike source (· = f.l) t
  history : t.history = s.history
  caught : t.caught = s.caught

/-- How far the run of the old body and that of the new one have come. -/
inductive Fold.Related (f : Fold) (w : World V) (source : Method) (s t : State V) : Prop where
  /-- Away from the definition and its reader. -/
  | outside (apart : t.position < f.place ∨ f.place + f.gap < t.position)
      (position : s.position = f.origin t.position) (alike : s.Alike source (· = f.l) t)
      (history : t.history = s.history) (caught : t.caught = s.caught)
  /-- The old run has computed a pure value. -/
  | computed (low : f.place ≤ t.position) (high : t.position ≤ f.place + f.gap)
      (position : s.position = t.position + 1) (alike : s.Alike source (· = f.l) t)
      (history : t.history = s.history) (caught : ∀ v, s.caught = some v → t.caught = some v)
      (v : V) (set : s.env f.l = some v)
      (stands : ∀ caught history, evaluate w t.env caught history f.value = some (history, .ok v))
  /-- The old run waits in front of the definition. Whatever the value and the history are when it
  is computed, the old run then catches up. -/
  | waiting (impure : f.value.isPure = false) (passed : Nat) (within : passed ≤ f.gap)
      (position : s.position = f.place) (ahead : t.position = f.place + passed)
      (alike : s.Alike source (· = f.l) t) (history : t.history = s.history)
      (catchesUp : ∀ v history, ∃ g : State V,
        Leads w source passed (.running { s with
          position := f.place + 1, env := s.env.set f.l v, caught := none, history }) (.running g) ∧
        g.position = f.place + 1 + passed ∧ g.history = history ∧ g.env f.l = some v ∧
        g.caught = none ∧ g.Alike source (· = f.l) t)

namespace Folds

variable {source target : Method} {f : Fold} (folds : Folds source target f)

include folds

/-! ## The definition -/

section Definition

variable {s t : State V} {history : History V} {v x : V}

theorem way_place : source.Way f.place (f.place + 1) false (some f.l) :=
  folds.tidy.way_next folds.takes.get_place rfl

section

variable (here : s.position = f.place)

include here

theorem step_place
    (value : evaluate w s.env s.caught s.history f.value = some (history, .ok v)) :
    s.step w source = .running { s with
      position := f.place + 1, env := s.env.set f.l v, caught := none, history } := by
  rw [step_of_carryOut (by rw [here]; exact folds.takes.get_place) rfl (carryOut_assign value)]
  have behind : source.enters (f.place + 1) = false :=
    folds.enters_inside (Nat.le_succ _) (by omega)
  simp only [follow, here, goTo_eq, behind]
  rfl

theorem step_place_error
    (failed : evaluate w s.env s.caught s.history f.value = some (history, .error x)) :
    s.step w source = { s with history, caught := none }.follow w source (.raise x) := by
  rw [step_of_carryOut (by rw [here]; exact folds.takes.get_place) rfl
    (carryOut_assign_error failed)]
  rfl

theorem alike_place (alike : s.Alike source (· = f.l) t)
    (caught : Option V) (history : History V) :
    ({ s with position := f.place + 1, env := s.env.set f.l v, caught, history } :
      State V).Alike source (· = f.l) t := by
  have behind : source.enters (f.place + 1) = false :=
    folds.enters_inside (Nat.le_succ _) (by omega)
  refine ⟨alike.origin, fun x apart known => ?_, fun x apart carried => ?_⟩
  · rcases folds.way_place.known x known with own | before
    · exact absurd (Option.some.inj own).symm apart
    · rw [← here] at before
      exact (alike.env x apart before).trans (if_neg apart).symm
  · have before := folds.way_place.carried s.origin x (by rwa [behind])
    rw [behind, ← here] at before
    exact alike.entering x apart before

end

end Definition

/-! ## The values of locals -/

section Values

variable {s t : State V} {position : Nat} {a : Action} {x : LocalId}

section

variable (proper : source.Proper) (single : source.SingleAssignment)

include proper single

theorem env_of_reads
    (alike : s.Alike source (· = f.l) t) (found : source.actions[s.position]? = some a)
    (other : s.position ≠ f.place + 1 + f.gap) : ∀ x ∈ a.uses, t.env x = s.env x := by
  intro x read
  refine alike.env x ?_ (single.knows found read)
  rintro rfl
  exact folds.unread proper found other read

theorem knows_of_value (read : x ∈ f.value.uses) : x ≠ f.l ∧ source.Knows f.place x := by
  have uses : x ∈ (assign f.l f.value).uses := by
    rw [uses_eq]
    simpa [parts] using read
  refine ⟨?_, single.knows folds.takes.get_place uses⟩
  rintro rfl
  exact folds.unread proper folds.takes.get_place (by omega) uses

end

theorem knows_inside (known : source.Knows f.place x) (low : f.place ≤ position)
    (high : position ≤ f.place + 1 + f.gap) : source.Knows position x := by
  refine ⟨lt_of_le_of_lt high folds.lt_length, ?_⟩
  rcases Nat.eq_or_lt_of_le low with rfl | behind
  · exact known.2
  · rw [Method.assigns_iff]
    intro assigned way entered trail
    obtain ⟨earlier, first, sub⟩ := folds.walk_back trail behind high
    exact sub (known.2 earlier first.path)

theorem defines_ne (single : source.SingleAssignment) (tracked : s.Tracked source)
    (between : f.place ≤ s.position ∧ s.position ≤ f.place + 1 + f.gap)
    (known : source.Knows f.place x) (found : source.actions[position]? = some a)
    (low : f.place ≤ position) (high : position ≤ f.place + f.gap) : a.defines? ≠ some x := by
  intro own
  obtain ⟨assigned, entered, trail, -⟩ :=
    tracked (lt_of_le_of_lt between.2 folds.lt_length)
  rcases Nat.eq_or_lt_of_le between.1 with same | behind
  · exact folds.fresh single found own low high (same ▸ trail) known.2
  · obtain ⟨earlier, first, -⟩ := folds.walk_back trail behind between.2
    exact folds.fresh single found own low high first known.2

theorem defines_ne_l (single : source.SingleAssignment)
    (found : source.actions[position]? = some a) (other : position ≠ f.place) :
    a.defines? ≠ some f.l :=
  fun own => other (single.once _ _ _ _ f.l found folds.takes.get_place own rfl)

end Values

/-! ## Arriving -/

section Arriving

variable {s t : State V}

section

variable (proper : source.Proper) (single : source.SingleAssignment) (tracked : s.Tracked source)

include proper single tracked

theorem related_of_arrived (arrived : f.Arrived source s t) :
    ∃ count status, Leads w source count (.running s) status ∧
      Beside (f.Related w source) status (.running t) := by
  obtain ⟨apart, position, alike, history, caught⟩ := arrived
  by_cases away : t.position = f.place
  · rw [if_pos (le_of_eq away), away] at position
    cases pure : f.value.isPure with
    | true =>
      obtain ⟨v, value⟩ := (folds.value_proper proper).evaluate_pure (w := w) pure fun x read =>
        tracked.isSome_env (position ▸ (folds.knows_of_value proper single read).2)
      refine ⟨1, _, Leads.one (folds.step_place position (value _ _)), .running ?_⟩
      refine .computed (le_of_eq away.symm) (by omega) (congrArg (· + 1) away.symm)
        (folds.alike_place position alike none s.history) history (fun _ none => nomatch none) v
        (if_pos rfl) fun caught history => ?_
      refine (folds.value_proper proper).evaluate_mono (fun x read u set => ?_) (fun _ _ set => set)
        (value history caught)
      obtain ⟨other, known⟩ := folds.knows_of_value proper single read
      exact (alike.env x other (position ▸ known)).trans set
    | false =>
      refine ⟨0, _, Leads.refl _, .running (.waiting pure 0 (Nat.zero_le _) position away alike
        history fun v after => ⟨_, Leads.refl _, rfl, rfl, if_pos rfl, rfl, ?_⟩)⟩
      exact folds.alike_place position alike none after
  · refine ⟨0, _, Leads.refl _, .running (.outside (by omega) ?_ alike history caught)⟩
    rw [position, Fold.origin]
    split <;> split <;> omega

theorem madeUp {g : State V} {count : Nat} (walk : Leads w source count (.running s) (.running g))
    (here : Beside (f.Arrived source) (g.step w source) (t.step w target))
    (measure : State V → Nat) : MadeUp w (f.Related w source) measure source target s t := by
  have later := tracked.leads folds.tidy proper walk
  generalize reached : g.step w source = a at here
  generalize reachedOther : t.step w target = b at here
  have through := walk.trans (Leads.one reached)
  cases here with
  | @running s' t' arrived =>
    obtain ⟨more, status, leads, there⟩ := folds.related_of_arrived (w := w) proper single
      (later.step folds.tidy proper reached) arrived
    exact ⟨count + 1 + more, status, through.trans leads, reachedOther ▸ there, by omega⟩
  | returned v history =>
    refine ⟨count + 1, _, through, ?_, by omega⟩
    rw [reachedOther]
    exact .returned v history
  | uncaught x history =>
    refine ⟨count + 1, _, through, ?_, by omega⟩
    rw [reachedOther]
    exact .uncaught x history
  | stuck => exact ⟨count + 1, _, through, .stuck _, by omega⟩

end

end Arriving

/-! ## Leaving a statement -/

section Leaving

variable {s t : State V} {a b : Action}

theorem arrived_label {l : Label} {position : Nat} (there : source.find? l = some position) :
    ∃ p, target.find? l = some p ∧ (p < f.place ∨ f.place + f.gap < p) ∧ position = f.origin p := by
  obtain ⟨p, rfl, found, outside⟩ := folds.find_source there
  refine ⟨p, found, ?_, rfl⟩
  unfold Fold.origin at outside
  split at outside <;> omega

theorem arrived_jump (alike : s.Alike source (· = f.l) t)
    (block : target.blockAt t.position = source.blockAt s.position)
    (found : source.actions[s.position]? = some a) {l : Label} (goal : l ∈ a.targets)
    (own : a.defines? = none) (caught : Option V) (history : History V) :
    Beside (f.Arrived source) (({ s with history, caught } : State V).follow w source (.jump l))
      (({ t with history, caught } : State V).follow w target (.jump l)) := by
  simp only [follow]
  cases there : source.find? l with
  | none => exact .stuck _
  | some position =>
    obtain ⟨p, here, outside, rfl⟩ := folds.arrived_label there
    simp only [here]
    have way := folds.tidy.way_jump found goal there
    rw [own] at way
    refine .running ⟨?_, ?_, ?_, ?_, ?_⟩
    · rw [goTo_position]
      omega
    · rw [goTo_position, goTo_position, Fold.origin]
      split <;> split <;> omega
    · refine alike.goTo way (folds.enters_eq p) block rfl rfl rfl rfl rfl rfl ?_
      rintro x apart (contrary | known)
      · cases contrary
      · exact alike.env x apart known
    · rw [goTo_history, goTo_history]
    · rw [goTo_caught, goTo_caught]

theorem arrived_raise (alike : s.Alike source (· = f.l) t)
    (block : target.blockAt t.position = source.blockAt s.position)
    (covers : ∀ trap, target.covered trap t.position = source.covered trap s.position)
    (found : source.actions[s.position]? = some a) (throws : a.canThrow = true) (x : V)
    (caught : Option V) (history : History V) :
    Beside (f.Arrived source) (({ s with history, caught } : State V).follow w source (.raise x))
      (({ t with history, caught } : State V).follow w target (.raise x)) := by
  have same : target.trapFor? w x t.position = source.trapFor? w x s.position := by
    simp only [Method.trapFor?, folds.traps, covers]
  simp only [follow, same]
  cases taken : source.trapFor? w x s.position with
  | none => exact .uncaught x history
  | some trap =>
    obtain ⟨listed, covered⟩ := Method.trapFor?_spec taken
    dsimp only
    cases there : source.find? trap.handler with
    | none => exact .stuck _
    | some position =>
      obtain ⟨p, here, outside, rfl⟩ := folds.arrived_label there
      simp only [here]
      refine .running ⟨?_, ?_, ?_, ?_, ?_⟩
      · rw [goTo_position]
        omega
      · rw [goTo_position, goTo_position, Fold.origin]
        split <;> split <;> omega
      · refine alike.goTo (folds.tidy.way_thrown found throws listed covered there)
          (folds.enters_eq p) block rfl rfl rfl rfl rfl rfl ?_
        rintro x apart (contrary | known)
        · cases contrary
        · exact alike.env x apart known
      · rw [goTo_history, goTo_history]
      · rw [goTo_caught, goTo_caught]

end Leaving

/-! ## Steps -/

section Steps

variable {s t : State V} {a b : Action}

theorem block_eq (found : target.actions[t.position]? = some b)
    (position : s.position = f.origin t.position) :
    target.blockAt t.position = source.blockAt s.position := by
  rw [position]
  exact folds.blockAt_eq (lt_of_get found)

theorem enters_next (position : s.position = f.origin t.position) :
    target.enters (t.position + 1) = source.enters (s.position + 1) := by
  rw [folds.enters_eq, position]
  by_cases last : t.position + 1 = f.place
  · rw [Fold.origin_of_ge (Nat.le_of_eq last.symm),
      folds.enters_inside (by omega : f.place ≤ t.position + 1 + 1) (by omega),
      Fold.origin_of_lt (by omega), folds.enters_inside (Nat.le_of_eq last.symm) (by omega)]
  · refine congrArg _ ?_
    unfold Fold.origin
    split <;> split <;> omega

theorem alike_next (alike : s.Alike source (· = f.l) t)
    (position : s.position = f.origin t.position)
    (found : source.actions[s.position]? = some a) (foundOther : target.actions[t.position]? = some b)
    (falls : a.fallsThrough = true) {v : Option V}
    (given : ∀ l, a.defines? = some l → v.isSome) (caught received : Option V)
    (history later : History V) :
    (({ s with history, env := s.env.define a.defines? v, caught } : State V).goTo source
        (s.position + 1) false).Alike source (· = f.l)
      (({ t with
          history := later, env := t.env.define a.defines? v, caught := received } : State V).goTo
        target (t.position + 1) false) := by
  refine alike.goTo (folds.tidy.way_next found falls) (folds.enters_next position)
    (folds.block_eq foundOther position) rfl rfl rfl rfl rfl rfl fun x apart known => ?_
  refine Env.define_eq ?_
  rcases known with own | before
  · exact .inl ⟨own, given x own⟩
  · exact .inr (alike.env x apart before)

/-- Both runs carry out statements that do the same. Either they go on behind them, or they arrive
at the same place. -/
theorem step_cases (proper : source.Proper) (alike : s.Alike source (· = f.l) t)
    (position : s.position = f.origin t.position)
    (found : source.actions[s.position]? = some a) (foundOther : target.actions[t.position]? = some b)
    (single : a.isPhi = false) (singleOther : b.isPhi = false) (label : b.isLabel = a.isLabel)
    (defines : b.defines? = a.defines?)
    (evaluates : ∀ r, evaluateAll w s.env s.caught s.history a.inputs = some r →
      evaluateAll w t.env t.caught t.history b.inputs = some r)
    (concludes : ∀ history values, b.conclude w history values = a.conclude w history values) :
    Beside (f.Arrived source) (s.step w source) (t.step w target) ∨
      ∃ v history, a.fallsThrough = true ∧ (∀ l, a.defines? = some l → v.isSome) ∧
        s.step w source = .running (({ s with
            history, env := s.env.define a.defines? v
            caught := if a.isLabel then s.caught else none } : State V).goTo source
          (s.position + 1) false) ∧
        t.step w target = .running (({ t with
            history, env := t.env.define a.defines? v
            caught := if a.isLabel then t.caught else none } : State V).goTo target
          (t.position + 1) false) := by
  by_cases unstuck : s.step w source = .stuck
  · left
    rw [unstuck]
    exact .stuck _
  obtain ⟨history, env, move, performed, same⟩ := step_eq_of_plain found single unstuck
  obtain ⟨v, rfl, performedOther, given⟩ :=
    carryOut_transfer single performed evaluates concludes defines
  have sameOther := step_of_carryOut foundOther singleOther performedOther
  rw [label] at sameOther
  have block := folds.block_eq foundOther position
  rw [same, sameOther]
  cases move with
  | next => exact .inr ⟨v, history, (carryOut_next single performed).1, given rfl, rfl, rfl⟩
  | jump l =>
    obtain ⟨goal, -, none⟩ := carryOut_jump performed
    have plain : a.isLabel = false := by
      cases a with
      | label => cases goal
      | _ => rfl
    rw [none, plain]
    exact .inl (folds.arrived_jump alike block found goal none _ history)
  | finish v => exact .inl (.returned v history)
  | raise x =>
    obtain ⟨throws, kept⟩ := proper.canThrow_of_raise (mem_of_getElem? found) performed
    obtain ⟨-, keptOther⟩ := (folds.proper_target proper).canThrow_of_raise
      (mem_of_getElem? foundOther) performedOther
    have plain : a.isLabel = false := by
      cases a with
      | label => cases throws
      | _ => rfl
    rw [kept, keptOther, plain]
    refine .inl (folds.arrived_raise alike block (fun trap => ?_) found throws x _ history)
    rw [position]
    exact folds.covered_eq trap t.position

theorem step_outside (proper : source.Proper) (single : source.SingleAssignment)
    (apart : t.position < f.place ∨ f.place + f.gap < t.position)
    (position : s.position = f.origin t.position) (alike : s.Alike source (· = f.l) t)
    (history : t.history = s.history) (caught : t.caught = s.caught) :
    Beside (f.Arrived source) (s.step w source) (t.step w target) := by
  have get : target.actions[t.position]? = source.actions[s.position]? := by
    rw [position]
    exact folds.takes.get (by omega)
  by_cases unstuck : s.step w source = .stuck
  · rw [unstuck]
    exact .stuck _
  have arrives : ∀ {after afterOther : State V}, after.Alike source (· = f.l) afterOther →
      after.position = s.position + 1 → afterOther.position = t.position + 1 →
      afterOther.history = after.history → afterOther.caught = after.caught →
      f.Arrived source after afterOther := by
    intro after afterOther alike here there history caught
    refine ⟨by omega, ?_, alike, history, caught⟩
    rw [here, there, position, Fold.origin]
    split <;> split <;> omega
  cases found : source.actions[s.position]? with
  | none =>
    refine absurd ?_ unstuck
    unfold step
    rw [found]
  | some a =>
    have foundOther := get.trans found
    cases joins : a.isPhi with
    | true =>
      cases a with
      | phi l args =>
        obtain ⟨arg, v, picks, value, same⟩ := step_eq_of_phi found unstuck
        have apart : arg.value ≠ f.l := folds.unjoined _ (mem_of_getElem? found) arg
          (mem_of_find?_eq_some picks)
        have reads : incoming t.origin t.entering args = some v := by
          rw [alike.origin, incoming, Option.bind_eq_some_iff]
          exact ⟨arg, picks, (alike.entering _ apart (single.carries found picks)).trans value⟩
        rw [same, step_phi w foundOther reads]
        refine .running (arrives ?_ ?_ ?_ ?_ ?_)
        · refine alike.goTo (folds.tidy.way_next found rfl) (folds.enters_next position)
            (folds.block_eq foundOther position) rfl rfl rfl rfl rfl rfl fun x apart known => ?_
          show (if x = l then some v else t.env x) = if x = l then some v else s.env x
          rcases known with own | before
          · cases own
            simp
          · rw [alike.env x apart before]
        · rw [goTo_position]
        · rw [goTo_position]
        · rwa [goTo_history, goTo_history]
        · rwa [goTo_caught, goTo_caught]
      | _ => cases joins
    | false =>
      have member := mem_of_getElem? found
      have other : s.position ≠ f.place + 1 + f.gap := by
        rw [position, Fold.origin]
        split <;> omega
      have reads := folds.env_of_reads proper single alike found other
      rcases folds.step_cases (w := w) proper alike position found foundOther joins joins rfl rfl
        (fun r done => by
          rw [history, caught]
          exact evaluateAll_agree (proper.operands a member).inputs_proper
            (fun x read u set => (reads x
              ((proper.operands a member).inputs_uses.subset read)).trans set)
            (fun _ _ _ _ set => set) done) (fun _ _ => rfl)
        with arrived | ⟨v, after, falls, given, same, sameOther⟩
      · exact arrived
      · rw [same, sameOther]
        refine .running (arrives
          (folds.alike_next alike position found foundOther falls given _ _ after after) ?_ ?_ ?_ ?_)
        · rw [goTo_position]
        · rw [goTo_position]
        · rw [goTo_history, goTo_history]
        · rw [goTo_caught, goTo_caught, caught]

theorem step_reader (proper : source.Proper) (alike : s.Alike source (· = f.l) t)
    (here : s.position = f.place + 1 + f.gap) (there : t.position = f.place + f.gap)
    (evaluates : ∀ r, evaluateAll w s.env s.caught s.history f.reader.inputs = some r →
      evaluateAll w t.env t.caught t.history (f.reader.inputs.map (Expr.replaceLocal f.l f.value)) =
        some r) :
    Beside (f.Arrived source) (s.step w source) (t.step w target) := by
  have position : s.position = f.origin t.position := by
    rw [here, there, Fold.origin_of_ge (by omega)]
    omega
  have properReader := proper.operands _ folds.mem_reader
  have keeps := folds.keepsPlace proper
  obtain ⟨plain, single⟩ := plain_of_isReader folds.reads
  have notLabel : f.reader.isLabel = false := isLabel_of_plain plain
  have found : source.actions[s.position]? = some f.reader := here ▸ folds.takes.get_reader
  have foundOther : target.actions[t.position]? = some (f.reader.replaceLocal f.l f.value) :=
    there ▸ folds.takes.get_changed
  rcases folds.step_cases (w := w) proper alike position found foundOther single (by simpa) (by simp [isLabel])
    (by simp) (fun r done => by
      rw [properReader.inputs_replaceLocal keeps]
      exact evaluates r done) (properReader.conclude_replaceLocal keeps f.value)
    with arrived | ⟨v, after, falls, given, same, sameOther⟩
  · exact arrived
  · rw [same, sameOther, notLabel]
    refine .running ⟨?_, ?_, folds.alike_next alike position found foundOther falls given none none
      after after, ?_, ?_⟩
    · rw [goTo_position]
      omega
    · rw [goTo_position, goTo_position, here, there]
      split <;> omega
    · rw [goTo_history, goTo_history]
    · rw [goTo_caught, goTo_caught]
      rfl

section

variable (proper : source.Proper) (single : source.SingleAssignment) (tracked : s.Tracked source)

include proper single tracked

theorem step_computed (low : f.place ≤ t.position) (high : t.position ≤ f.place + f.gap)
    (position : s.position = t.position + 1) (alike : s.Alike source (· = f.l) t)
    (history : t.history = s.history) (caught : ∀ v, s.caught = some v → t.caught = some v) {v : V}
    (set : s.env f.l = some v)
    (stands : ∀ caught history, evaluate w t.env caught history f.value = some (history, .ok v))
    (measure : State V → Nat) : MadeUp w (f.Related w source) measure source target s t := by
  have origin : s.position = f.origin t.position := by
    rw [position, Fold.origin_of_ge low]
  rcases Nat.eq_or_lt_of_le high with last | inside
  · refine folds.madeUp proper single tracked (Leads.refl _) ?_ measure
    refine folds.step_reader proper alike (by omega) last fun r done => ?_
    have properReader := proper.operands _ folds.mem_reader
    rw [evaluateAll_replaceLocal properReader.inputs_proper (stands t.caught), history]
    refine evaluateAll_agree properReader.inputs_proper (fun x read u here => ?_)
      (fun _ _ _ u here => caught u here) done
    by_cases own : x = f.l
    · subst own
      exact (if_pos rfl).trans (set.symm.trans here)
    · refine (if_neg own).trans ((alike.env x own ?_).trans here)
      refine single.knows ?_ (properReader.inputs_uses.subset read)
      rw [position, last, Nat.add_right_comm]
      exact folds.takes.get_reader
  · obtain ⟨a, found, plain, joins, -⟩ := folds.plain_inside (by omega : f.place ≤ s.position)
      (by omega)
    have foundOther : target.actions[t.position]? = some a := by
      rwa [folds.takes.get (Nat.ne_of_lt inside), ← origin]
    have properHere := proper.operands a (mem_of_getElem? found)
    have reads := folds.env_of_reads proper single alike found (by omega)
    rcases folds.step_cases (w := w) proper alike origin found foundOther joins joins rfl rfl
      (fun r done => by
        rw [history]
        exact evaluateAll_agree properHere.inputs_proper
          (fun x read u set => (reads x (properHere.inputs_uses.subset read)).trans set)
          (fun _ _ _ u here => caught u here) done) (fun _ _ => rfl)
      with arrived | ⟨u, after, falls, given, same, sameOther⟩
    · exact folds.madeUp proper single tracked (Leads.refl _) arrived measure
    · refine ⟨1, _, Leads.one same, ?_, by omega⟩
      rw [sameOther, isLabel_of_plain plain]
      refine .running (.computed ?_ ?_ ?_
        (folds.alike_next alike origin found foundOther falls given none none after after) ?_ ?_ v ?_ ?_)
      · rw [goTo_position]
        omega
      · rw [goTo_position]
        omega
      · rw [goTo_position, goTo_position, position]
      · rw [goTo_history, goTo_history]
      · rw [goTo_caught]
        exact fun _ none => nomatch none
      · rw [goTo_env]
        exact (Env.define_of_ne (folds.defines_ne_l single found (by omega)) u).trans set
      · intro caught history
        rw [goTo_env]
        refine (folds.value_proper proper).evaluate_mono (fun x read y here => ?_)
          (fun _ _ here => here) (stands caught history)
        have known := (folds.knows_of_value proper single read).2
        exact (Env.define_of_ne (folds.defines_ne single tracked (by omega) known found (by omega)
          (by omega)) u).trans here

section

variable (trackedOther : t.Tracked target) (impure : f.value.isPure = false)

include trackedOther impure

theorem step_waiting
    {passed : Nat} (inside : passed < f.gap) (position : s.position = f.place)
    (ahead : t.position = f.place + passed) (alike : s.Alike source (· = f.l) t)
    (history : t.history = s.history)
    (catchesUp : ∀ v history, ∃ g : State V, Leads w source passed (.running { s with
        position := f.place + 1, env := s.env.set f.l v, caught := none, history }) (.running g) ∧
      g.position = f.place + 1 + passed ∧ g.history = history ∧ g.env f.l = some v ∧
      g.caught = none ∧ g.Alike source (· = f.l) t) :
    ∃ after, t.step w target = .running after ∧ after.position = t.position + 1 ∧
      f.Related w source s after := by
  obtain ⟨a, member, found⟩ := folds.takes.get_between inside
  have foundOther : target.actions[t.position]? = some a := by
    rwa [folds.takes.get (by omega), ahead, Fold.origin_of_ge (by omega), Nat.add_right_comm]
  have properHere := proper.operands a (mem_of_getElem? found)
  have pure : a.isPure = true := by
    rcases folds.moves with contrary | ⟨all, -⟩
    · rw [impure] at contrary
      cases contrary
    · exact all a member
  obtain ⟨plain, joins, -⟩ := folds.plain a member
  have notLabel := isLabel_of_plain plain
  have singleOther := folds.singleAssignment_target proper single
  obtain ⟨u, given, carried⟩ := carryOut_of_isPure (w := w) pure properHere fun x read =>
    trackedOther.isSome_env (singleOther.knows foundOther read)
  have done := carried t.env (fun _ _ => rfl) t.caught t.history
  have falls := (carryOut_next joins done).1
  have step := step_of_carryOut foundOther joins done
  rw [notLabel] at step
  -- The old run would make the same step, were it as far.
  have follows : ∀ {g : State V}, g.position = f.place + 1 + passed → g.Alike source (· = f.l) t →
      ∃ after, g.step w source = .running after ∧ after.position = g.position + 1 ∧
        after.history = g.history ∧ after.env f.l = g.env f.l ∧ after.caught = none ∧
        after.Alike source (· = f.l) (({ t with
          env := t.env.define a.defines? u, caught := none } : State V).goTo target
            (t.position + 1) false) := by
    intro g there alike
    have origin : g.position = f.origin t.position := by
      rw [there, ahead, Fold.origin_of_ge (by omega)]
      omega
    have foundHere : source.actions[g.position]? = some a := there ▸ found
    have reads := folds.env_of_reads proper single alike foundHere (by omega)
    have stepThere := step_of_carryOut foundHere joins
      (carried g.env (fun x read => (reads x read).symm) g.caught g.history)
    rw [notLabel] at stepThere
    refine ⟨_, stepThere, goTo_position .., goTo_history .., ?_, goTo_caught .., ?_⟩
    · rw [goTo_env]
      exact Env.define_of_ne (folds.defines_ne_l single foundHere (by omega)) u
    · exact folds.alike_next alike origin foundHere foundOther falls given none none g.history
        t.history
  refine ⟨_, step, goTo_position .., .waiting impure (passed + 1) inside position ?_ ?_ ?_ ?_⟩
  · rw [goTo_position, ahead, Nat.add_assoc]
  · have plainNext : target.enters (t.position + 1) = false := by
      rw [folds.enters_eq, ahead, Fold.origin_of_ge (by omega)]
      exact folds.enters_inside (by omega) (by omega)
    refine ⟨?_, fun x apart known => ?_, fun x apart carries => ?_⟩
    · rw [goTo_origin, plainNext]
      exact alike.origin
    · rw [goTo_env]
      refine (Env.define_of_ne ?_ u).trans (alike.env x apart known)
      exact folds.defines_ne single tracked (by omega) (position ▸ known) found (by omega) (by omega)
    · rw [goTo_entering, plainNext]
      exact alike.entering x apart carries
  · rwa [goTo_history]
  · intro v later
    obtain ⟨g, walk, there, same, value, -, alikeThere⟩ := catchesUp v later
    obtain ⟨after, stepThere, positionAfter, historyAfter, valueAfter, caughtAfter, alikeAfter⟩ :=
      follows there alikeThere
    exact ⟨after, walk.trans (Leads.one stepThere), by omega, historyAfter.trans same,
      valueAfter.trans value, caughtAfter, alikeAfter⟩

theorem step_catchUp
    (position : s.position = f.place) (ahead : t.position = f.place + f.gap)
    (alike : s.Alike source (· = f.l) t) (history : t.history = s.history)
    (catchesUp : ∀ v history, ∃ g : State V, Leads w source f.gap (.running { s with
        position := f.place + 1, env := s.env.set f.l v, caught := none, history }) (.running g) ∧
      g.position = f.place + 1 + f.gap ∧ g.history = history ∧ g.env f.l = some v ∧
      g.caught = none ∧ g.Alike source (· = f.l) t) (measure : State V → Nat) :
    MadeUp w (f.Related w source) measure source target s t := by
  by_cases unstuck : s.step w source = .stuck
  · exact ⟨1, _, Leads.one unstuck, .stuck _, by omega⟩
  have properReader := proper.operands _ folds.mem_reader
  have properValue := folds.value_proper proper
  have first : FirstRead f.l f.reader.inputs := by
    rcases folds.moves with contrary | ⟨-, first⟩
    · rw [impure] at contrary
      cases contrary
    · exact first
  have foundOther : target.actions[t.position]? = some (f.reader.replaceLocal f.l f.value) :=
    ahead ▸ folds.takes.get_changed
  have set : ∀ x ∈ f.reader.inputs.flatMap Expr.uses, x ≠ f.l → (t.env x).isSome := by
    intro x read other
    refine trackedOther.isSome_env
      ((folds.singleAssignment_target proper single).knows foundOther ?_)
    rw [properReader.uses_replaceLocal, mem_flatMap]
    exact ⟨x, properReader.inputs_uses.subset read, by simp [other]⟩
  -- The new run computes the value first, as the old one does.
  have computes : ∀ r, evaluate w s.env s.caught s.history f.value = some r →
      evaluate w t.env t.caught t.history f.value = some r := by
    intro r done
    rw [history]
    refine properValue.evaluate_mono (fun x read u here => ?_) (fun mentions => ?_) done
    · obtain ⟨other, known⟩ := folds.knows_of_value proper single read
      exact (alike.env x other (position ▸ known)).trans here
    · rw [proper.received _ _ folds.mem_definition] at mentions
      cases mentions
  have opens : evaluateAll w t.env t.caught t.history _ = _ :=
    first.evaluateAll_replaceLocal properReader.inputs_proper (folds.count_eq proper).2.1 set f.value
  rcases value : evaluate w s.env s.caught s.history f.value with _ | ⟨after, x | v⟩
  · refine absurd ?_ unstuck
    have nothing : (assign f.l f.value).carryOut w s.env s.caught s.history = none := by
      unfold carryOut
      rw [show (assign f.l f.value).inputs = [f.value] from rfl, evaluateAll_single, value]
      rfl
    by_contra unstuck
    obtain ⟨_, _, _, contrary, -⟩ :=
      step_eq_of_plain (position ▸ folds.takes.get_place) rfl unstuck
    rw [nothing] at contrary
    cases contrary
  · refine folds.madeUp proper single tracked (Leads.refl _) ?_ measure
    rw [computes _ value, andThen_error] at opens
    have fails : (f.reader.replaceLocal f.l f.value).carryOut w t.env t.caught t.history =
        some (after, t.env, .raise x) := by
      unfold carryOut
      rw [properReader.inputs_replaceLocal (folds.keepsPlace proper), opens]
    obtain ⟨plain, joins⟩ := plain_of_isReader folds.reads
    have stepThere := step_of_carryOut foundOther (by simpa) fails
    rw [isLabel_of_plain (by simpa)] at stepThere
    rw [folds.step_place_error position value, stepThere]
    have origin : f.origin t.position = f.place + 1 + f.gap := by
      rw [ahead, Fold.origin_of_ge (by omega), Nat.add_right_comm]
    refine folds.arrived_raise alike ?_ (fun trap => ?_) (position ▸ folds.takes.get_place) ?_ x none after
    · rw [folds.blockAt_eq (lt_of_get foundOther), origin, position]
      exact folds.blockAt_place.symm
    · rw [folds.covered_eq, origin, position]
      exact (folds.covered_place trap).symm
    · rw [canThrow_eq rfl]
      simp [parts, properValue.canThrow_of_error value]
  · obtain ⟨g, walk, there, same, holds, none, alikeThere⟩ := catchesUp v after
    refine folds.madeUp proper single tracked
      ((Leads.one (folds.step_place position value)).trans walk) ?_ measure
    refine folds.step_reader proper alikeThere there ahead fun r done => ?_
    rw [opens, computes _ value, andThen_ok, ← same]
    refine evaluateAll_agree properReader.inputs_proper (fun x read u here => ?_)
      (fun _ _ _ u here => ?_) done
    · by_cases own : x = f.l
      · subst own
        exact (if_pos rfl).trans (holds.symm.trans here)
      · refine (if_neg own).trans ((alikeThere.env x own ?_).trans here)
        refine single.knows ?_ (properReader.inputs_uses.subset read)
        rw [there]
        exact folds.takes.get_reader
    · rw [none] at here
      cases here

end

end

end Steps

/-! ## Runs -/

theorem step_related {s t : State V} (proper : source.Proper) (single : source.SingleAssignment)
    (tracked : s.Tracked source) (trackedOther : t.Tracked target)
    (related : f.Related w source s t) :
    MadeUp w (f.Related w source) (fun t => f.place + f.gap - t.position) source target s t := by
  cases related with
  | outside apart position alike history caught =>
    exact folds.madeUp proper single tracked (Leads.refl _)
      (folds.step_outside proper single apart position alike history caught) _
  | computed low high position alike history caught v set stands =>
    exact folds.step_computed proper single tracked low high position alike history caught set stands
      _
  | waiting impure passed within position ahead alike history catchesUp =>
    rcases Nat.eq_or_lt_of_le within with rfl | inside
    · exact folds.step_catchUp proper single tracked trackedOther impure position ahead alike history
        catchesUp _
    · obtain ⟨after, step, there, related⟩ := folds.step_waiting proper single tracked trackedOther
        impure inside position ahead alike history catchesUp
      refine ⟨0, _, Leads.refl _, ?_, fun _ => ⟨after, step, ?_⟩⟩
      · rw [step]
        exact .running related
      · dsimp only
        omega

theorem takesPlace (w : World V) (proper : source.Proper) (single : source.SingleAssignment) :
    source.TakesPlace w (f.Related w source) target := by
  have arrived : f.Arrived source (.start : State V) .start :=
    ⟨.inl (Nat.zero_le _), rfl, ⟨rfl, fun _ _ _ => rfl, fun _ _ _ => rfl⟩, rfl, rfl⟩
  have trackedStart : (start : State V).Tracked source :=
    fun _ => ⟨[], [], .start, by simp, by simp⟩
  obtain ⟨count, status, leads, here⟩ :=
    folds.related_of_arrived (w := w) proper single trackedStart arrived
  have start : Beside (f.Related w source) (source.run w count) (target.run w 0) := by
    rwa [← Nat.zero_add count, leads.run rfl]
  refine Method.takesPlace_of_step w (fun t => f.place + f.gap - t.position) start
    fun s t done k reached reachedOther related => ?_
  exact folds.step_related proper single (Method.tracked_of_run folds.tidy proper reached)
    (Method.tracked_of_run folds.tidyTarget (folds.proper_target proper) reachedOther) related

end Folds

end DexLift.Ir
