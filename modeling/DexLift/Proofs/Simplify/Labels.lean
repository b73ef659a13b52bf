import DexLift.Proofs.Simplify.Merging
import DexLift.Simplify.Reachable

/-!
# Labels nothing refers to, and runs of labels

Labels are taken out in two rounds: first those nothing refers to, then all but
the first of every run of labels without joins, with the references to the
others sent to the first. Each round relabels the method and leaves the labels
with joins alone.
-/

namespace DexLift.Ir.Method

open List

variable {m : Method} {l : Label} {id : StmtId}

/-! ## Labels nothing refers to -/

def countLabel (counts : Array Nat) : Label → Array Nat
  | .nowhere => counts
  | .number index => counts.modify index (· + 1)

theorem countLabels_spec (labels : List Label) (counts : Array Nat) (index : Nat)
    (inside : index < counts.size) :
    0 < (labels.foldl countLabel counts).getD index 0 ↔
      0 < counts.getD index 0 ∨ Label.number index ∈ labels := by
  induction labels generalizing counts with
  | nil => simp
  | cons l labels ih =>
    have size : (countLabel counts l).size = counts.size := by
      cases l <;> simp [countLabel]
    have step : 0 < (countLabel counts l).getD index 0 ↔
        0 < counts.getD index 0 ∨ l = .number index := by
      cases l with
      | nowhere => simp [countLabel]
      | number i =>
        simp only [countLabel, getD_modify, Label.number.injEq]
        grind
    rw [foldl_cons, ih _ (size ▸ inside), step, mem_cons, or_assoc]
    exact or_congr_right (or_congr_left eq_comm)

theorem labelIsUsed_iff {place : StmtId} (placed : m.placedAt? l = some place) :
    m.labelIsUsed l = true ↔ l ∈ m.mentioned ∨ l ∈ m.phiLabels := by
  cases l with
  | nowhere => cases placed
  | number index =>
    have inside : index < m.placed.size := by
      by_contra outside
      simp [placedAt?, outside] at placed
    have counted := countLabels_spec m.mentioned (Array.replicate m.placed.size 0) index
      (by simpa using inside)
    have unfolded : m.labelRefs = m.mentioned.foldl countLabel (Array.replicate m.placed.size 0) := by
      unfold labelRefs mentioned
      congr 1
    simp only [labelIsUsed, Bool.or_eq_true, decide_eq_true_eq, contains_iff_mem, unfolded]
    rw [gt_iff_lt, counted]
    simp [inside]

/-- What stays when labels nothing refers to are taken out. -/
def staysUsed (m : Method) (id : StmtId) : Bool :=
  match m.action id with
  | .label l => m.labelIsUsed l
  | _ => true

theorem Tidy.staysUsed_of_label (tidy : m.Tidy) (member : id ∈ m.order.toList)
    (label : m.action id = .label l) (used : l ∈ m.mentioned ∨ l ∈ m.phiLabels) :
    m.staysUsed id = true := by
  rw [staysUsed, label]
  exact (labelIsUsed_iff (tidy.placed_of_label id member l label)).mpr used

theorem Tidy.relabels_removeUnusedLabels (tidy : m.Tidy) :
    m.Relabels m.removeUnusedLabels m.staysUsed fun l => l := by
  have unfolded : m.removeUnusedLabels = m.removeWhere fun id => !m.staysUsed id := by
    refine congrArg m.removeWhere (funext fun id => ?_)
    unfold staysUsed
    cases m.action id <;> rfl
  rw [unfolded]
  obtain ⟨placed, size, equal, -⟩ := removeWhere_with tidy fun id => !m.staysUsed id
  refine ⟨tidy, tidy.removeWhere _, ?_, ?_, ?_, ?_, fun _ _ missing => missing, ?_⟩
  · rw [equal, Array.toList_filter]
    simp
  · intro id member
    rw [Action.mapLabels_id, equal]
    rfl
  · rw [equal]
    exact (map_id m.traps).symm
  · intro id _ gone
    unfold staysUsed at gone
    split at gone
    next label => rw [label]; rfl
    · cases gone
  · intro l mentioned position found
    obtain ⟨id, here, label⟩ := exists_order (tidy.find?_eq_some.mp found)
    refine ⟨position, id, found, le_rfl, here,
      tidy.staysUsed_of_label (mem_of_getElem? here) label (.inl mentioned), ?_⟩
    intro i other low high
    omega

theorem Tidy.joinsStay_removeUnusedLabels (tidy : m.Tidy) : m.JoinsStay m.staysUsed fun l => l where
  kept := fun _ member _ joined label => tidy.staysUsed_of_label member label (.inr joined)
  same := fun _ _ => rfl
  only := fun _ _ => rfl
  nowhere := rfl

/-! ## Runs of labels -/

section Runs

variable {joined : List Label} {position first : Nat}

def Loose (m : Method) (joined : List Label) (position : Nat) : Prop :=
  ∃ l, l ∉ joined ∧ m.actions[position]? = some (.label l)

structure RunFrom (m : Method) (joined : List Label) (first position : Nat) : Prop where
  le : first ≤ position
  loose : ∀ i, first ≤ i → i ≤ position → m.Loose joined i
  begins : first = 0 ∨ ¬ m.Loose joined (first - 1)

section

variable (run : m.RunFrom joined first position)

include run

theorem RunFrom.unique {other : Nat} (run' : m.RunFrom joined other position) : first = other := by
  rcases Nat.lt_trichotomy first other with less | same | greater
  · rcases run'.begins with zero | before
    · omega
    · exact absurd (run.loose (other - 1) (by omega) (by have := run'.le; omega)) before
  · exact same
  · rcases run.begins with zero | before
    · omega
    · exact absurd (run'.loose (first - 1) (by omega) (by have := run.le; omega)) before

theorem RunFrom.earlier {i : Nat} (low : first ≤ i)
    (high : i ≤ position) : m.RunFrom joined first i :=
  ⟨low, fun j low' high' => run.loose j low' (le_trans high' high), run.begins⟩

theorem RunFrom.next
    (loose : m.Loose joined (position + 1)) : m.RunFrom joined first (position + 1) := by
  refine ⟨Nat.le_succ_of_le run.le, ?_, run.begins⟩
  intro i low high
  rcases Nat.le_succ_iff.mp high with high | rfl
  · exact run.loose i low high
  · exact loose

end

def Merges (m : Method) (joined : List Label) (entry : StmtId × Label × Label) (position : Nat) :
    Prop :=
  m.order.toList[position]? = some entry.1 ∧ m.action entry.1 = .label entry.2.1 ∧
    ∃ first < position, m.RunFrom joined first position ∧
      m.actions[first]? = some (.label entry.2.2)

/-- What has been found in front of a position: the run that reaches up to it, and an entry for
each label behind another one of its run. -/
structure FoundRuns (m : Method) (joined : List Label) (count : Nat)
    (state : Option Label × List (StmtId × Label × Label)) : Prop where
  broken : state.1 = none → count = 0 ∨ ¬ m.Loose joined (count - 1)
  open_ : ∀ l, state.1 = some l → 0 < count ∧ ∃ first, m.RunFrom joined first (count - 1) ∧
    m.actions[first]? = some (.label l)
  entries : ∀ entry, entry ∈ state.2 ↔ ∃ position < count, m.Merges joined entry position

theorem FoundRuns.step {count : Nat} {state : Option Label × List (StmtId × Label × Label)}
    (found : m.FoundRuns joined count state) (here : m.order.toList[count]? = some id) :
    m.FoundRuns joined (count + 1) (m.runStep joined state id) := by
  have action := getElem?_actions here
  -- Where no label without joins stands, nothing is entered and no run goes on.
  have closed : ¬ m.Loose joined count → m.FoundRuns joined (count + 1) (none, state.2) := by
    intro notLoose
    refine ⟨fun _ => .inr notLoose, nofun, fun entry => ?_⟩
    rw [found.entries, Nat.exists_lt_succ_right, or_iff_left]
    rintro ⟨-, -, first, less, run, -⟩
    exact notLoose (run.loose _ run.le le_rfl)
  unfold runStep
  split
  next l label =>
    split
    next has =>
      refine closed ?_
      rintro ⟨l', absent, same⟩
      rw [action, label] at same
      cases same
      exact absent (contains_iff_mem.mp has)
    next hasNot =>
      have absent : l ∉ joined := fun member => hasNot (contains_iff_mem.mpr member)
      rw [label] at action
      have loose : m.Loose joined count := ⟨l, absent, action⟩
      split
      next none =>
        have run : m.RunFrom joined count count :=
          ⟨le_rfl, fun i low high => Nat.le_antisymm high low ▸ loose, found.broken none⟩
        refine ⟨nofun, ?_, fun entry => ?_⟩
        · intro l' same
          obtain rfl : l = l' := Option.some.inj same
          exact ⟨Nat.succ_pos _, count, run, action⟩
        · rw [found.entries, Nat.exists_lt_succ_right, or_iff_left]
          rintro ⟨-, -, first, less, run', -⟩
          exact Nat.ne_of_gt less (run.unique run')
      next first some =>
        obtain ⟨positive, place, run, label'⟩ := found.open_ first some
        have run' : m.RunFrom joined place count := by
          have next := run.next (by rwa [Nat.sub_add_cancel positive])
          rwa [Nat.sub_add_cancel positive] at next
        refine ⟨nofun, ?_, fun entry => ?_⟩
        · intro l' same
          obtain rfl : first = l' := Option.some.inj same
          exact ⟨Nat.succ_pos _, place, run', label'⟩
        · rw [mem_cons, found.entries, Nat.exists_lt_succ_right, or_comm]
          refine or_congr_right ⟨?_, ?_⟩
          · rintro rfl
            have le := run.le
            exact ⟨here, label, place, by omega, run', label'⟩
          · obtain ⟨entryId, old, new⟩ := entry
            rintro ⟨same, label'', other, -, run'', firstLabel⟩
            obtain rfl := Option.some.inj (here.symm.trans same)
            obtain rfl := run'.unique run''
            rw [label'] at firstLabel
            rw [label] at label''
            cases firstLabel
            cases label''
            rfl
  next other =>
    refine closed ?_
    rintro ⟨l, -, same⟩
    rw [action] at same
    exact other l (Option.some.inj same)

theorem mem_labelRuns {entry : StmtId × Label × Label} :
    entry ∈ m.labelRuns joined ↔ ∃ position, m.Merges joined entry position := by
  suffices prefixes : ∀ count ≤ m.order.toList.length,
      m.FoundRuns joined count ((m.order.toList.take count).foldl (m.runStep joined) (none, [])) by
    have all := (prefixes _ le_rfl).entries entry
    rw [take_length] at all
    rw [labelRuns, ← Array.foldl_toList, all]
    constructor
    · rintro ⟨position, -, merges⟩
      exact ⟨position, merges⟩
    · rintro ⟨position, merges⟩
      exact ⟨position, (lt_of_get merges.1), merges⟩
  intro count le
  induction count with
  | zero =>
    refine ⟨fun _ => .inl rfl, nofun, fun entry => ?_⟩
    simp
  | succ count ih =>
    have here := getElem?_eq_getElem (Nat.lt_of_succ_le le)
    rw [take_add_one, here, foldl_append]
    exact (ih (Nat.le_of_succ_le le)).step here

theorem exists_run (loose : m.Loose joined position) : ∃ first, m.RunFrom joined first position := by
  induction position with
  | zero =>
    exact ⟨0, le_rfl, fun i _ high => Nat.le_zero.mp high ▸ loose, .inl rfl⟩
  | succ position ih =>
    by_cases before : m.Loose joined position
    · obtain ⟨first, run⟩ := ih before
      exact ⟨first, run.next loose⟩
    · exact ⟨position + 1, le_rfl, fun i low high => le_antisymm high low ▸ loose, .inr before⟩

end Runs

/-! ## One label for each run -/

def staysFirst (runs : List (StmtId × Label × Label)) (id : StmtId) : Bool :=
  !(runs.map fun (id, _, _) => id).contains id

/-- The label that stands for another. -/
def runLabel (runs : List (StmtId × Label × Label)) (l : Label) : Label :=
  ((runs.find? fun (_, old, _) => old == l).map fun (_, _, new) => new).getD l

section Merged

variable {joined : List Label} {position first : Nat}

theorem staysFirst_eq_false : staysFirst (m.labelRuns joined) id = false ↔
    ∃ position first, m.order.toList[position]? = some id ∧ first < position ∧
      m.RunFrom joined first position := by
  simp only [staysFirst, Bool.not_eq_false', contains_iff_mem, mem_map]
  constructor
  · rintro ⟨entry, listed, rfl⟩
    obtain ⟨position, here, -, first, less, run, -⟩ := mem_labelRuns.mp listed
    exact ⟨position, first, here, less, run⟩
  · rintro ⟨position, first, here, less, run⟩
    obtain ⟨l, -, label⟩ := run.loose position run.le le_rfl
    obtain ⟨l', -, label'⟩ := run.loose first le_rfl run.le
    rw [getElem?_actions here] at label
    exact ⟨(id, l, l'), mem_labelRuns.mpr
      ⟨position, here, Option.some.inj label, first, less, run, label'⟩, rfl⟩

section

variable (tidy : m.Tidy) (run : m.RunFrom joined first position)

include tidy run

theorem Tidy.staysFirst_of_first
    (here : m.order.toList[first]? = some id) : staysFirst (m.labelRuns joined) id = true := by
  rw [← Bool.not_eq_false, staysFirst_eq_false]
  rintro ⟨place, other, there, less, run'⟩
  obtain rfl := tidy.order_unique here there
  exact absurd ((run.earlier le_rfl run.le).unique run') (Nat.ne_of_gt less)

theorem Tidy.runLabel_of_run (label : m.actions[position]? = some (.label l)) :
    m.actions[first]? = some (.label (runLabel (m.labelRuns joined) l)) := by
  obtain ⟨id, here, isLabel⟩ := exists_order label
  unfold runLabel
  cases found : (m.labelRuns joined).find? fun (_, old, _) => old == l with
  | some entry =>
    have same : entry.2.1 = l := by simpa using find?_some found
    obtain ⟨place, there, label', other, -, run', firstLabel⟩ :=
      mem_labelRuns.mp (mem_of_find?_eq_some found)
    have equal : place = position :=
      tidy.position_unique (by rw [getElem?_actions there, label', same]) label
    subst equal
    obtain rfl := run.unique run'
    exact firstLabel
  | none =>
    rcases Nat.eq_or_lt_of_le run.le with rfl | less
    · exact label
    · obtain ⟨l', -, label'⟩ := run.loose first le_rfl run.le
      have listed : (id, l, l') ∈ m.labelRuns joined :=
        mem_labelRuns.mpr ⟨position, here, isLabel, first, less, run, label'⟩
      have missing := find?_eq_none.mp found _ listed
      simp at missing

end

theorem runLabel_of_not_loose
    (notLoose : ∀ position, m.actions[position]? = some (.label l) → ¬ m.Loose joined position) :
    runLabel (m.labelRuns joined) l = l := by
  unfold runLabel
  cases found : (m.labelRuns joined).find? fun (_, old, _) => old == l with
  | none => rfl
  | some entry =>
    have same : entry.2.1 = l := by simpa using find?_some found
    obtain ⟨place, there, label, _, -, run, -⟩ :=
      mem_labelRuns.mp (mem_of_find?_eq_some found)
    have found := getElem?_actions there
    rw [label, same] at found
    exact absurd (run.loose place run.le le_rfl) (notLoose place found)

theorem retarget_with (tidy : m.Tidy) (change : Label → Label) :
    (m.retarget change).Tidy ∧ (m.retarget change).order = m.order ∧
      (∀ id ∈ m.order.toList, (m.retarget change).action id = (m.action id).mapLabels change) ∧
      (m.retarget change).traps = m.traps.map (Trap.mapLabels change) := by
  obtain ⟨stmts, size, equal, each⟩ := mapActions_with tidy (Action.mapLabels change)
  have tidy' : (m.mapActions (Action.mapLabels change)).Tidy := tidy.mapActions fun a => by simp
  refine ⟨?_, ?_, ?_, ?_⟩
  · exact tidy'.of_same_labels tidy'.plain tidy'.nodup tidy'.made (fun _ _ => Iff.rfl) fun l => by
      cases l <;> rfl
  · rw [retarget, equal]
  · intro id member
    have same := each id
    rwa [if_pos member] at same
  · rw [retarget, equal]
    rfl

theorem Tidy.relabels_merged (tidy : m.Tidy) :
    m.Relabels
      ((m.removeWhere ((m.labelRuns joined).map fun (id, _, _) => id).contains).retarget
        (runLabel (m.labelRuns joined)))
      (staysFirst (m.labelRuns joined)) (runLabel (m.labelRuns joined)) := by
  obtain ⟨placed, size, equal, -⟩ :=
    removeWhere_with tidy ((m.labelRuns joined).map fun (id, _, _) => id).contains
  have tidy' := tidy.removeWhere ((m.labelRuns joined).map fun (id, _, _) => id).contains
  obtain ⟨target, order, actions, traps⟩ := retarget_with tidy' (runLabel (m.labelRuns joined))
  have sameAction : ∀ id, (m.removeWhere
      ((m.labelRuns joined).map fun (id, _, _) => id).contains).action id = m.action id := by
    intro id
    rw [equal]
    rfl
  refine ⟨tidy, target, ?_, ?_, ?_, ?_, ?_, ?_⟩
  · rw [order, equal, Array.toList_filter]
    rfl
  · intro id member
    rw [order] at member
    rw [actions id member, sameAction]
  · rw [traps, equal]
  · intro id member gone
    obtain ⟨position, first, here, -, run⟩ := staysFirst_eq_false.mp gone
    obtain ⟨l, -, label⟩ := run.loose position run.le le_rfl
    rw [getElem?_actions here] at label
    rw [Option.some.inj label]
    rfl
  · intro l _ missing
    rw [runLabel_of_not_loose, missing]
    intro position label
    rw [tidy.find?_eq_some.mpr label] at missing
    cases missing
  · intro l _ position found
    have label := tidy.find?_eq_some.mp found
    by_cases loose : m.Loose joined position
    · obtain ⟨first, run⟩ := exists_run loose
      have firstLabel := tidy.runLabel_of_run run label
      obtain ⟨id, here, -⟩ := exists_order firstLabel
      refine ⟨first, id, tidy.find?_eq_some.mpr firstLabel, run.le, here,
        tidy.staysFirst_of_first run here, ?_⟩
      intro i other low high there
      exact staysFirst_eq_false.mpr ⟨i, first, there, low, run.earlier (Nat.le_of_lt low) high⟩
    · have same : runLabel (m.labelRuns joined) l = l := runLabel_of_not_loose fun place label' => by
        rwa [tidy.position_unique label' label]
      obtain ⟨id, here, -⟩ := exists_order label
      refine ⟨position, id, by rw [same, found], le_rfl, here, ?_, ?_⟩
      · rw [← Bool.not_eq_false, staysFirst_eq_false]
        rintro ⟨place, first, there, -, run⟩
        obtain rfl := tidy.order_unique here there
        exact loose (run.loose _ run.le le_rfl)
      · intro i other low high
        omega

theorem Tidy.joinsStay_merged (tidy : m.Tidy) (same : ∀ l, l ∈ joined ↔ l ∈ m.phiLabels) :
    m.JoinsStay (staysFirst (m.labelRuns joined)) (runLabel (m.labelRuns joined)) := by
  have notLoose : ∀ l ∈ m.phiLabels, ∀ position, m.actions[position]? = some (.label l) →
      ¬ m.Loose joined position := by
    rintro l listed position label ⟨l', absent, label'⟩
    rw [label] at label'
    cases label'
    exact absent ((same l).mpr listed)
  refine ⟨?_, ?_, ?_, ?_⟩
  · intro id member l listed label
    rw [← Bool.not_eq_false, staysFirst_eq_false]
    rintro ⟨position, first, here, -, run⟩
    have found := getElem?_actions here
    rw [label] at found
    exact notLoose l listed position found (run.loose position run.le le_rfl)
  · exact fun l listed => runLabel_of_not_loose (notLoose l listed)
  · intro l listed
    by_cases label : ∃ position, m.actions[position]? = some (.label l) ∧ m.Loose joined position
    · -- The first label of a run has no joins.
      obtain ⟨position, label, loose⟩ := label
      obtain ⟨first, run⟩ := exists_run loose
      have firstLabel := tidy.runLabel_of_run run label
      exact absurd (run.loose first le_rfl run.le) (notLoose _ listed first firstLabel)
    · exact runLabel_of_not_loose fun position label' loose => label ⟨position, label', loose⟩
  · refine runLabel_of_not_loose ?_
    intro position label
    exact absurd rfl (tidy.ne_nowhere (tidy.find?_eq_some.mpr label))

end Merged

/-! ## Both rounds -/

theorem SameFlow.trans {n k : Method} (tidy : m.Tidy) (tidy' : n.Tidy) (first : m.SameFlow n)
    (second : n.SameFlow k)
    (plain : ∀ id, m.Live id → (m.action id).isLabel = false → (n.action id).isLabel = false) :
    m.SameFlow k := by
  have live : ∀ id, m.Live id → (m.action id).isLabel = false → n.Live id := by
    intro id live notLabel
    rw [← tidy'.visits_iff (plain id live notLabel), first.visits tidy]
    exact (tidy.visits_iff notLabel).mpr live
  refine ⟨second.entry.trans first.entry, ?_, ?_⟩
  · intro id here notLabel next
    rw [second.follows id (live id here notLabel) (plain id here notLabel),
      first.follows id here notLabel]
  · intro id here notLabel
    rw [second.dispatch id (live id here notLabel) (plain id here notLabel),
      first.dispatch id here notLabel]

end DexLift.Ir.Method
