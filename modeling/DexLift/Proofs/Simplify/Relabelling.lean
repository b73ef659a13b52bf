import DexLift.Proofs.Ir.Thinning

/-!
# Taking out labels

A method relabels another when it has the same statements without some of the
labels, and refers to a label in front of the same run where the other refers to
one that was taken out. Statements that are no labels are followed by the same
ones, and what they throw is taken at the same places in the same order.
-/

namespace DexLift.Ir

open List

def Trap.mapLabels (change : Label → Label) (t : Trap) : Trap :=
  { t with start := change t.start, stop := change t.stop, handler := change t.handler }

namespace Action

variable (change : Label → Label) (a : Action)

@[simp] theorem label?_mapLabels : (a.mapLabels change).label? = a.label? := by cases a <;> rfl
@[simp] theorem isLabel_mapLabels : (a.mapLabels change).isLabel = a.isLabel := by cases a <;> rfl
@[simp] theorem fallsThrough_mapLabels : (a.mapLabels change).fallsThrough = a.fallsThrough := by
  cases a <;> rfl
@[simp] theorem endsBlock_mapLabels : (a.mapLabels change).endsBlock = a.endsBlock := by
  cases a <;> rfl
@[simp] theorem canThrow_mapLabels : (a.mapLabels change).canThrow = a.canThrow := by
  cases a <;> rfl
@[simp] theorem targets_mapLabels : (a.mapLabels change).targets = a.targets.map change := by
  cases a <;> rfl
@[simp] theorem preds_mapLabels :
    (a.mapLabels change).phiArgs.map PhiArg.pred = (a.phiArgs.map PhiArg.pred).map change := by
  cases a <;> simp [mapLabels, phiArgs]

theorem mapLabels_id : (a.mapLabels fun l => l) = a := by cases a <;> simp [mapLabels]

variable {change a}

theorem mapLabels_eq_label {l : Label} (same : a.mapLabels change = .label l) : a = .label l := by
  rw [← label?_eq_some] at same ⊢
  simpa using same

end Action

namespace Method

def mentioned (m : Method) : List Label :=
  m.actions.flatMap (fun action => action.targets ++ action.phiArgs.map PhiArg.pred) ++
    m.traps.flatMap fun t => [t.start, t.stop, t.handler]

/-- The second method is the first one without some labels, where references to a label that was
taken out go to one that has only such labels between itself and the former place. -/
structure Relabels (m n : Method) (keep : StmtId → Bool) (change : Label → Label) : Prop where
  source : m.Tidy
  target : n.Tidy
  order : n.order.toList = m.order.toList.filter keep
  action : ∀ id ∈ n.order.toList, n.action id = (m.action id).mapLabels change
  traps : n.traps = m.traps.map (Trap.mapLabels change)
  labels : ∀ id ∈ m.order.toList, keep id = false → (m.action id).isLabel = true
  absent : ∀ l ∈ m.mentioned, m.find? l = none → m.find? (change l) = none
  moved : ∀ l ∈ m.mentioned, ∀ position, m.find? l = some position →
    ∃ first id, m.find? (change l) = some first ∧ first ≤ position ∧
      m.order.toList[first]? = some id ∧ keep id = true ∧
        ∀ i other, first < i → i ≤ position → m.order.toList[i]? = some other → keep other = false

section Mentioned

variable {m : Method} {id : StmtId} {l : Label}

theorem mentioned_of_target (member : id ∈ m.order.toList) (listed : l ∈ (m.action id).targets) :
    l ∈ m.mentioned :=
  mem_append_left _ (mem_flatMap.mpr ⟨m.action id, mem_map_of_mem member, mem_append_left _ listed⟩)

theorem mentioned_of_trap {t : Trap} (member : t ∈ m.traps)
    (named : l = t.start ∨ l = t.stop ∨ l = t.handler) : l ∈ m.mentioned :=
  mem_append_right _ (mem_flatMap.mpr ⟨t, member, by simpa using named⟩)

end Mentioned

namespace Relabels

variable {m n : Method} {keep : StmtId → Bool} {change : Label → Label} {id : StmtId} {l : Label}
  {position : Nat}

section

variable (relabels : m.Relabels n keep change)

include relabels

theorem thins : m.Thins n keep where
  source := relabels.source
  target := relabels.target
  order := relabels.order
  label id listed := by rw [relabels.action id listed, Action.label?_mapLabels]
  ends id listed := by rw [relabels.action id listed, Action.endsBlock_mapLabels]

variable (here : m.order.toList[position]? = some id)

include here

theorem action_of_kept (kept : keep id = true) : n.action id = (m.action id).mapLabels change :=
  relabels.action id (mem_of_getElem? (relabels.thins.at_rank here kept))

theorem kept_of_plain (plain : (m.action id).isLabel = false) : keep id = true := by
  cases gone : keep id with
  | true => rfl
  | false =>
    rw [relabels.labels id (mem_of_getElem? here) gone] at plain
    cases plain

end

section

variable (relabels : m.Relabels n keep change)

include relabels

theorem landing_rank (position : Nat) :
    n.landing (rank keep m.order.toList position) = m.landing position :=
  relabels.thins.landing_rank fun id lands => by
    obtain ⟨place, -, here, plain, -⟩ := exists_of_landing lands
    exact relabels.kept_of_plain here plain

theorem place (mentioned : l ∈ m.mentioned) (found : m.find? l = some position) :
    ∃ index, n.find? (change l) = some index ∧ n.landing index = m.landing position ∧
      ∀ i id, m.order.toList[i]? = some id → (m.action id).isLabel = false →
        (index < rank keep m.order.toList i ↔ position < i) ∧
          (rank keep m.order.toList i < index ↔ i < position) := by
  obtain ⟨first, id, goal, le, here, kept, gone⟩ := relabels.moved l mentioned position found
  have label : m.action id = .label (change l) := by
    have same := getElem?_actions here
    rw [relabels.source.find?_eq_some.mp goal] at same
    exact (Option.some.inj same).symm
  have labels : ∀ i other, first ≤ i → i ≤ position → m.order.toList[i]? = some other →
      (m.action other).isLabel = true := by
    intro i other low high there
    rcases Nat.eq_or_lt_of_le low with rfl | low
    · obtain rfl := Option.some.inj (here.symm.trans there)
      rw [label]
      rfl
    · exact relabels.labels other (mem_of_getElem? there) (gone i other low high there)
  refine ⟨rank keep m.order.toList first, relabels.thins.find?_rank here kept goal, ?_, ?_⟩
  · rw [relabels.landing_rank]
    exact landing_of_labels le fun i other low high => labels i other low (le_of_lt high)
  · intro i other there plain
    have outside : ¬ (first ≤ i ∧ i ≤ position) := by grind
    rw [rank_lt_iff here kept, rank_lt_iff there (relabels.kept_of_plain there plain)]
    omega

theorem place_none (mentioned : l ∈ m.mentioned) (missing : m.find? l = none) :
    n.find? (change l) = none := by
  refine Option.eq_none_iff_forall_ne_some.mpr ?_
  intro index found
  obtain ⟨position, -, -, -, -, there⟩ := relabels.thins.exists_find? found
  cases there.symm.trans (relabels.absent l mentioned missing)

/-! ## The flow is the same -/

section

variable (here : m.order.toList[position]? = some id) (plain : (m.action id).isLabel = false)

include here plain

theorem follows_iff {next : StmtId} : n.Follows id next ↔ m.Follows id next := by
  have kept := relabels.kept_of_plain here plain
  rw [relabels.target.follows_iff (relabels.thins.at_rank here kept), relabels.source.follows_iff here,
    relabels.action_of_kept here kept, Action.fallsThrough_mapLabels, Action.targets_mapLabels,
    ← rank_succ_of_kept here kept, relabels.landing_rank]
  refine or_congr_right ?_
  simp only [mem_map, exists_exists_and_eq_and]
  refine exists_congr fun l => and_congr_right fun listed => ?_
  have mentioned := mentioned_of_target (mem_of_getElem? here) listed
  cases found : m.find? l with
  | none => simp [relabels.place_none mentioned found]
  | some target =>
    obtain ⟨index, goal, lands, -⟩ := relabels.place mentioned found
    simp [goal, lands]

theorem covered_rank {t : Trap} (member : t ∈ m.traps) :
    n.covered (t.mapLabels change) (rank keep m.order.toList position) = m.covered t position := by
  have start : t.start ∈ m.mentioned := mentioned_of_trap member (.inl rfl)
  have stop : t.stop ∈ m.mentioned := mentioned_of_trap member (.inr (.inl rfl))
  unfold covered Trap.mapLabels
  dsimp only
  cases atStart : m.find? t.start with
  | none => simp [relabels.place_none start atStart]
  | some first =>
    cases atStop : m.find? t.stop with
    | none => simp [relabels.place_none stop atStop]
    | some last =>
      obtain ⟨_, goal, -, around⟩ := relabels.place start atStart
      obtain ⟨_, goal', -, around'⟩ := relabels.place stop atStop
      simp only [goal, goal', (around _ _ here plain).1, (around' _ _ here plain).2]

theorem caughtAt_rank :
    n.caughtAt (rank keep m.order.toList position) =
      (m.caughtAt position).map (Trap.mapLabels change) := by
  rw [caughtAt, caughtAt, relabels.traps, filter_map]
  refine congrArg (map _) (filter_congr fun t member => ?_)
  exact relabels.covered_rank here plain member

end

theorem landing_find? (mentioned : l ∈ m.mentioned) :
    (n.find? (change l)).bind n.landing = (m.find? l).bind m.landing := by
  cases found : m.find? l with
  | none => simp [relabels.place_none mentioned found]
  | some target =>
    obtain ⟨index, goal, lands, -⟩ := relabels.place mentioned found
    simp [goal, lands]

theorem dispatch_eq (here : m.order.toList[position]? = some id)
    (plain : (m.action id).isLabel = false) : n.dispatch id = m.dispatch id := by
  have kept := relabels.kept_of_plain here plain
  rw [relabels.target.dispatch_eq (relabels.thins.at_rank here kept), relabels.source.dispatch_eq here,
    relabels.action_of_kept here kept, Action.canThrow_mapLabels]
  refine if_congr Iff.rfl ?_ rfl
  rw [relabels.caughtAt_rank here plain, map_map]
  refine map_congr_left fun t listed => Prod.ext rfl ?_
  exact relabels.landing_find? (mentioned_of_trap (mem_filter.mp listed).1 (.inr (.inr rfl)))

theorem sameFlow : m.SameFlow n where
  entry := relabels.landing_rank 0
  follows := fun _ live plain _ =>
    let ⟨_, here, _⟩ := live
    relabels.follows_iff here plain
  dispatch := fun _ live plain =>
    let ⟨_, here, _⟩ := live
    relabels.dispatch_eq here plain

end

end Relabels

end Method

end DexLift.Ir
