import DexLift.Proofs.Simplify.Reachable

/-!
# Control flow and joins after cleaning

Taking out labels and taking out dead code leave what follows each reachable
statement as it was, without an exception and with one, and joins keep exactly
the operands for the edges that are left. A label that marks the end of a trap
stays even when it cannot be reached; the edge out of it is not counted.
-/

namespace DexLift.Ir.Method

open List

variable {m : Method}

theorem cleanLabels_eq : m.cleanLabels = (m.removeUnusedLabels.removeWhere
    ((m.removeUnusedLabels.labelRuns m.phiLabels).map fun (id, _, _) => id).contains).retarget
      (runLabel (m.removeUnusedLabels.labelRuns m.phiLabels)) := rfl

/-- Taking out labels keeps the flow and every statement that is no label, changes nothing but the
labels that are referred to, and leaves joins with operands that fit all edges. -/
theorem Tidy.coherent_cleanLabels (tidy : m.Tidy) (fit : m.JoinsFit fun _ => True) :
    m.SameFlow m.cleanLabels ∧ m.cleanLabels.order.toList.Sublist m.order.toList ∧
      (∀ id ∈ m.order.toList, (m.action id).isLabel = false → id ∈ m.cleanLabels.order.toList) ∧
      (∃ change, ∀ id ∈ m.cleanLabels.order.toList,
        m.cleanLabels.action id = (m.action id).mapLabels change) ∧
      m.cleanLabels.JoinsFit fun _ => True := by
  have first := tidy.relabels_removeUnusedLabels
  have firstStays := tidy.joinsStay_removeUnusedLabels
  have tidy' := first.target
  have second := @Tidy.relabels_merged _ m.phiLabels tidy'
  have secondStays := tidy'.joinsStay_merged fun l => (first.mem_phiLabels_iff firstStays).symm
  have same : ∀ {id}, id ∈ m.removeUnusedLabels.order.toList →
      m.removeUnusedLabels.action id = m.action id := by
    intro id member
    rw [first.action id member, Action.mapLabels_id]
  rw [cleanLabels_eq]
  refine ⟨first.sameFlow.trans tidy tidy' second.sameFlow ?_, ?_, ?_,
    ⟨runLabel (m.removeUnusedLabels.labelRuns m.phiLabels), ?_⟩,
    second.joinsFit secondStays (first.joinsFit firstStays fit)⟩
  · rintro id ⟨position, here, -⟩ plain
    have stays := first.thins.at_rank here (first.kept_of_plain here plain)
    rw [same (mem_of_getElem? stays), plain]
  · rw [second.order, first.order]
    exact filter_sublist.trans filter_sublist
  · intro id member plain
    obtain ⟨position, here⟩ := mem_iff_getElem?.mp member
    have stays := first.thins.at_rank here (first.kept_of_plain here plain)
    have plain' : (m.removeUnusedLabels.action id).isLabel = false := by
      rw [same (mem_of_getElem? stays), plain]
    exact mem_of_getElem? (second.thins.at_rank stays (second.kept_of_plain stays plain'))
  · intro id member
    have member' := member
    rw [second.order] at member'
    rw [second.action id member, same (mem_filter.mp member').1]

/-- Taking out dead code keeps the flow of what can be reached and just the statements that can,
labels aside, changes nothing but the operands of joins, and leaves joins with the operands for the
edges out of reachable statements. -/
theorem Tidy.coherent_removeDeadCode (tidy : m.Tidy)
    (placed : ∀ l ∈ m.mentioned, (m.find? l).isSome = true) (fit : m.JoinsFit fun _ => True) :
    m.SameFlow m.removeDeadCode ∧ m.removeDeadCode.order.toList.Sublist m.order.toList ∧
      (∀ id ∈ m.order.toList, (m.action id).isLabel = false →
        (id ∈ m.removeDeadCode.order.toList ↔ m.Live id)) ∧
      (∀ id ∈ m.removeDeadCode.order.toList,
        ∃ test, m.removeDeadCode.action id = (m.action id).keepArgs test) ∧
      m.removeDeadCode.JoinsFit m.removeDeadCode.IsLive := by
  have handlers : ∀ t ∈ m.traps, (m.find? t.handler).isSome = true := fun t member =>
    placed t.handler (mentioned_of_trap member (.inr (.inr rfl)))
  have prunes := tidy.prunes_removeDeadCode handlers
  refine ⟨prunes.sameFlow, ?_, ?_, prunes.action, tidy.joinsFit_removeDeadCode handlers fit⟩
  · rw [prunes.order]
    exact filter_sublist
  · intro id member plain
    obtain ⟨position, here⟩ := mem_iff_getElem?.mp member
    rw [prunes.order, mem_filter]
    constructor
    · rintro ⟨-, kept⟩
      exact ⟨position, here, Flow.isReachable_iff.mpr (prunes.dead position id here plain kept)⟩
    · rintro ⟨other, there, live⟩
      exact ⟨member, prunes.live other id there (Flow.isReachable_iff.mp live)⟩

/-- Taking out labels and taking out dead code keep control flow and joins coherent: what follows
the statements that can be reached stays, dead code is what cannot be reached, and joins have one
operand, with its local, for every edge that is left. Edges out of labels that cannot be reached do
not count when dead code is taken out. -/
theorem coherent_cleanLabels_removeDeadCode (m : Method) (tidy : m.Tidy)
    (placed : ∀ l ∈ m.mentioned, (m.find? l).isSome = true) (fit : m.JoinsFit fun _ => True) :
    (m.SameFlow m.cleanLabels ∧ m.cleanLabels.order.toList.Sublist m.order.toList ∧
      (∀ id ∈ m.order.toList, (m.action id).isLabel = false → id ∈ m.cleanLabels.order.toList) ∧
      (∃ change, ∀ id ∈ m.cleanLabels.order.toList,
        m.cleanLabels.action id = (m.action id).mapLabels change) ∧
      m.cleanLabels.JoinsFit fun _ => True) ∧
    m.SameFlow m.removeDeadCode ∧ m.removeDeadCode.order.toList.Sublist m.order.toList ∧
      (∀ id ∈ m.order.toList, (m.action id).isLabel = false →
        (id ∈ m.removeDeadCode.order.toList ↔ m.Live id)) ∧
      (∀ id ∈ m.removeDeadCode.order.toList,
        ∃ test, m.removeDeadCode.action id = (m.action id).keepArgs test) ∧
      m.removeDeadCode.JoinsFit m.removeDeadCode.IsLive :=
  ⟨tidy.coherent_cleanLabels fit, tidy.coherent_removeDeadCode placed fit⟩

/-- A method with a run of labels, a block that cannot be reached, and a join of three ways. -/
def meeting : Method :=
  { owner := "La;", name := "m", desc := "()I", access := ⟨8⟩, params := [], result := "I"
    locals := #[{ type := .int }, { type := .int }, { type := .int }, { type := .int }]
    stmts := #[⟨.label (.number 0), none⟩, ⟨.assign 0 (.ofInt 1), none⟩,
      ⟨.branch .eq (.read 0) none (.number 2), none⟩,
      ⟨.label (.number 1), none⟩, ⟨.assign 1 (.ofInt 2), none⟩, ⟨.goto (.number 4), none⟩,
      ⟨.label (.number 2), none⟩, ⟨.label (.number 3), none⟩, ⟨.assign 2 (.ofInt 3), none⟩,
      ⟨.goto (.number 4), none⟩, ⟨.label (.number 5), none⟩, ⟨.goto (.number 4), none⟩,
      ⟨.label (.number 4), none⟩,
      ⟨.phi 3 [⟨.number 1, 1, false⟩, ⟨.number 3, 2, false⟩, ⟨.number 5, 0, false⟩], none⟩,
      ⟨.return (some (.read 3)), none⟩]
    order := #[0, 1, 2, 3, 4, 5, 6, 7, 8, 9, 10, 11, 12, 13, 14]
    placed := #[some 0, some 3, some 6, some 7, some 12, some 10] }

/-- The operands of the join, when the run of labels has become one label and when the block that
cannot be reached is gone. -/
example : (meeting.cleanLabels.action 13).phiArgs =
      [⟨.number 1, 1, false⟩, ⟨.number 2, 2, false⟩, ⟨.number 5, 0, false⟩] ∧
    (meeting.removeDeadCode.action 13).phiArgs =
      [⟨.number 1, 1, false⟩, ⟨.number 3, 2, false⟩] := by
  with_unfolding_all decide

/-- The joins of the method fit after either pass, and the jump out of the block that cannot be
reached is gone. -/
theorem coherent_cleanLabels_removeDeadCode_meeting :
    (meeting.cleanLabels.JoinsFit fun _ => True) ∧
      meeting.removeDeadCode.JoinsFit meeting.removeDeadCode.IsLive ∧
        11 ∉ meeting.removeDeadCode.order.toList := by
  obtain ⟨⟨-, -, -, -, clean⟩, -, -, gone, -, live⟩ := coherent_cleanLabels_removeDeadCode meeting
    (by decide) (by decide) (by with_unfolding_all decide)
  refine ⟨clean, live, fun stays => ?_⟩
  exact absurd ((gone 11 (by decide) (by decide)).mp stays) (by with_unfolding_all decide)

/-- A method whose trap ends at a label that cannot be reached and runs on into a join. -/
def marked : Method :=
  { owner := "La;", name := "m", desc := "()I", access := ⟨8⟩, params := [], result := "I"
    locals := #[{ type := .int }, { type := .int }, { type := .int }]
    traps := [⟨.number 1, .number 2, .number 4, ∅⟩]
    stmts := #[⟨.label (.number 0), none⟩, ⟨.assign 0 (.ofInt 1), none⟩,
      ⟨.assign 1 (.ofInt 2), none⟩, ⟨.label (.number 1), none⟩,
      ⟨.void (.node (.invoke .static ⟨"La;", "f", ⟨[], "V"⟩⟩) []), none⟩,
      ⟨.goto (.number 3), none⟩, ⟨.label (.number 2), none⟩, ⟨.label (.number 3), none⟩,
      ⟨.phi 2 [⟨.number 0, 0, false⟩, ⟨.number 2, 1, false⟩], none⟩,
      ⟨.return (some (.read 2)), none⟩, ⟨.label (.number 4), none⟩,
      ⟨.return (some (.read 0)), none⟩]
    order := #[0, 1, 2, 3, 4, 5, 6, 7, 8, 9, 10, 11]
    placed := #[some 0, some 3, some 6, some 7, some 10] }

/-- The label stays as the end of the trap and with it the edge into the join, which has lost the
operand for it. -/
theorem removeDeadCode_drops_marked :
    marked.Tidy ∧ (∀ l ∈ marked.mentioned, (marked.find? l).isSome = true) ∧
      (marked.JoinsFit fun _ => True) ∧ ¬ marked.removeDeadCode.JoinsFit fun _ => True := by
  refine ⟨by decide, by decide, by with_unfolding_all decide, by with_unfolding_all decide⟩

end DexLift.Ir.Method

/-!
# Labels and dead code settle at once

Taking out labels looks at what is referred to and at what stands side by side. Of each run
the first label is left, and what referred to the others refers to it; so every label that
is left is referred to or has joins, and no two labels without joins stand side by side.
Taking out dead code keeps what can be reached and the ways between it. Each operand that is
left names a way that is found again, since with fewer operands fewer labels are in the way.
A second run finds nothing to do.
-/

namespace DexLift.Ir.Method

open List

variable {change : Label → Label} {joined : List Label} {index : Nat} {exceptional : Bool}

variable {m n : Method} {l : Label} {id : StmtId} {position : Nat}

/-! ## Labels -/

theorem retarget_self (same : ∀ l, change l = l) : m.retarget change = m := by
  obtain rfl : change = fun l => l := funext same
  rw [retarget, mapActions_self fun id _ => (m.action id).mapLabels_id]
  simp

/-- Every label is referred to or has joins, and no two labels without joins stand side by side. -/
structure LabelsSettled (m : Method) : Prop where
  used : ∀ id ∈ m.order.toList, ∀ l, m.action id = .label l → l ∈ m.mentioned ∨ l ∈ m.phiLabels
  apart : ∀ position, m.Loose m.phiLabels position → ¬ m.Loose m.phiLabels (position + 1)

theorem Tidy.cleanLabels_self (tidy : m.Tidy) (settled : m.LabelsSettled) : m.cleanLabels = m := by
  have unused : m.removeUnusedLabels = m := by
    refine removeWhere_none tidy.plain fun id member => ?_
    split
    next l label =>
      have used := (labelIsUsed_iff (tidy.placed_of_label id member l label)).mpr
        (settled.used id member l label)
      rw [used]
      rfl
    · rfl
  have runs : m.labelRuns m.phiLabels = [] := by
    refine eq_nil_iff_forall_not_mem.mpr fun entry listed => ?_
    obtain ⟨position, -, -, first, less, run, -⟩ := mem_labelRuns.mp listed
    have before := run.loose (position - 1) (by omega) (by omega)
    have here := run.loose position run.le le_rfl
    rw [← Nat.sub_add_cancel (Nat.zero_lt_of_lt less)] at here
    exact settled.apart _ before here
  have first : m.removeWhere (([] : List (StmtId × Label × Label)).map Prod.fst).contains = m :=
    removeWhere_none tidy.plain fun _ _ => rfl
  rw [cleanLabels_eq, unused, runs]
  exact (congrArg (retarget · _) first).trans (retarget_self fun _ => rfl)

theorem Relabels.mentioned {keep : StmtId → Bool} (relabels : m.Relabels n keep change)
    (named : l ∈ m.mentioned) : change l ∈ n.mentioned := by
  rcases mem_append.mp named with listed | listed
  · obtain ⟨a, member, inside⟩ := mem_flatMap.mp listed
    obtain ⟨position, found⟩ := mem_iff_getElem?.mp member
    have plain : a.label? = none := by
      cases a with
      | label => cases inside
      | _ => rfl
    have there := relabels.action_rank (relabels.kept_of_action found plain) found
    refine mem_append_left _ (mem_flatMap.mpr ⟨_, mem_of_getElem? there, ?_⟩)
    rw [Action.targets_mapLabels, Action.preds_mapLabels, ← map_append]
    exact mem_map_of_mem inside
  · obtain ⟨t, member, inside⟩ := mem_flatMap.mp listed
    refine mem_append_right _ (mem_flatMap.mpr ⟨t.mapLabels change, ?_, ?_⟩)
    · rw [relabels.traps]
      exact mem_map_of_mem member
    · exact mem_map_of_mem (f := change) inside

theorem Tidy.runLabel_of_staysFirst (tidy : m.Tidy) (here : m.order.toList[position]? = some id)
    (label : m.action id = .label l) (stays : staysFirst (m.labelRuns joined) id = true) :
    runLabel (m.labelRuns joined) l = l := by
  have found : m.actions[position]? = some (.label l) := by rw [getElem?_actions here, label]
  by_cases loose : m.Loose joined position
  · obtain ⟨first, run⟩ := exists_run loose
    have start := tidy.runLabel_of_run run found
    rcases Nat.eq_or_lt_of_le run.le with rfl | less
    · rw [found] at start
      exact (Action.label.inj (Option.some.inj start)).symm
    · rw [staysFirst_eq_false.mpr ⟨position, first, here, less, run⟩] at stays
      cases stays
  · refine runLabel_of_not_loose fun other label' => ?_
    rwa [tidy.position_unique label' found]

theorem Tidy.apart_merged (tidy : m.Tidy)
    (relabels : m.Relabels n (staysFirst (m.labelRuns joined)) (runLabel (m.labelRuns joined)))
    (loose : n.Loose joined position) : ¬ n.Loose joined (position + 1) := by
  have place : ∀ {index : Nat}, n.Loose joined index → ∃ old id, m.order.toList[old]? = some id ∧
      staysFirst (m.labelRuns joined) id = true ∧ m.Loose joined old ∧
        rank (staysFirst (m.labelRuns joined)) m.order.toList old = index := by
    rintro index ⟨l, absent, label⟩
    obtain ⟨old, a, ⟨id, here, stays⟩, found, same, action⟩ := relabels.exists_kept label
    exact ⟨old, id, here, stays, ⟨l, absent, by rw [found, Action.mapLabels_eq_label action.symm]⟩,
      same⟩
  intro loose'
  obtain ⟨one, id, here, stays, looseOne, rankOne⟩ := place loose
  obtain ⟨other, id', here', stays', looseOther, rankOther⟩ := place loose'
  have adjacent : rank (staysFirst (m.labelRuns joined)) m.order.toList other =
      rank (staysFirst (m.labelRuns joined)) m.order.toList one + 1 := by omega
  have less : one < other := (rank_lt_iff here stays).mp (by omega)
  -- What stands between the two is taken out, so the other one is in a run.
  have before : m.Loose joined (other - 1) := by
    rcases Nat.eq_or_lt_of_le (Nat.le_sub_one_of_lt less) with same | between
    · rwa [← same]
    · obtain ⟨between', there⟩ : ∃ x, m.order.toList[other - 1]? = some x :=
        ⟨_, getElem?_eq_getElem (by
          have bound := lt_of_get here'
          omega)⟩
      have gone := gone_between here stays adjacent between (by omega) there
      obtain ⟨place, first, there', -, run⟩ := staysFirst_eq_false.mp gone
      obtain rfl := tidy.order_unique there there'
      exact run.loose _ run.le le_rfl
  obtain ⟨first, run⟩ := exists_run before
  have next := run.next (by rwa [Nat.sub_add_cancel (Nat.zero_lt_of_lt less)])
  rw [Nat.sub_add_cancel (Nat.zero_lt_of_lt less)] at next
  have le := run.le
  rw [staysFirst_eq_false.mpr ⟨other, first, here', by omega, next⟩] at stays'
  cases stays'

theorem Tidy.labelsSettled_cleanLabels (tidy : m.Tidy) :
    m.cleanLabels.Tidy ∧ m.cleanLabels.LabelsSettled := by
  have first := tidy.relabels_removeUnusedLabels
  have firstStays := tidy.joinsStay_removeUnusedLabels
  have tidy' := first.target
  have second := @Tidy.relabels_merged _ m.phiLabels tidy'
  have secondStays := tidy'.joinsStay_merged fun l => (first.mem_phiLabels_iff firstStays).symm
  have joined : ∀ l, l ∈ m.cleanLabels.phiLabels ↔ l ∈ m.phiLabels := fun l =>
    (second.mem_phiLabels_iff secondStays).trans (first.mem_phiLabels_iff firstStays)
  have loose : ∀ index, m.cleanLabels.Loose m.cleanLabels.phiLabels index ↔
      m.cleanLabels.Loose m.phiLabels index := fun index =>
    exists_congr fun l => and_congr_left fun _ => not_congr (joined l)
  refine ⟨second.target, fun id member l label => ?_, fun index here => ?_⟩
  · rw [cleanLabels_eq] at member label
    obtain ⟨position, there⟩ := mem_iff_getElem?.mp member
    rw [second.order] at there
    obtain ⟨old, here, stays, -⟩ := exists_rank there
    have member' := mem_of_getElem? here
    rw [second.action id member] at label
    have label' := Action.mapLabels_eq_label label
    have itself := tidy'.runLabel_of_staysFirst here label' stays
    rw [first.action id member', Action.mapLabels_id] at label'
    rw [first.order] at member'
    obtain ⟨linked, used⟩ := mem_filter.mp member'
    rw [staysUsed, label'] at used
    rcases (labelIsUsed_iff (tidy.placed_of_label id linked l label')).mp used with named | listed
    · left
      rw [cleanLabels_eq, ← itself]
      exact second.mentioned (first.mentioned named)
    · exact .inr ((joined l).mpr listed)
  · rw [loose] at here ⊢
    exact tidy'.apart_merged second here

theorem Tidy.cleanLabels_cleanLabels (tidy : m.Tidy) : m.cleanLabels.cleanLabels = m.cleanLabels :=
  let ⟨clean, settled⟩ := tidy.labelsSettled_cleanLabels
  clean.cleanLabels_self settled

/-! ## The ways that are found with fewer operands -/

theorem opensBlock_iff : (EdgeTable.ofMethod m).opensBlock (.number index) = true ↔
    m.opens (.number index) = true ∧ index < m.placed.size := by
  have noted : ∀ (labels : List Label) (opens : Array Bool),
      (labels.foldl EdgeTable.noteOpener opens).getD index false = true ↔
        opens.getD index false = true ∨ Label.number index ∈ labels ∧ index < opens.size := by
    intro labels
    induction labels with
    | nil => simp
    | cons l labels ih =>
      intro opens
      rw [foldl_cons, ih]
      cases l with
      | nowhere => simp [EdgeTable.noteOpener]
      | number i =>
        simp only [EdgeTable.noteOpener, getD_set, Array.size_setIfInBounds, mem_cons,
          Label.number.injEq]
        grind
  have unfolded : (EdgeTable.ofMethod m).opensBlock (.number index) =
      ((EdgeTable.openers m).foldl EdgeTable.noteOpener
        (Array.replicate m.placed.size false)).getD index false := rfl
  rw [unfolded, noted, Array.size_replicate, opens, contains_iff_mem]
  refine or_iff_right fun contrary => ?_
  rw [getD_replicate] at contrary
  cases contrary

theorem isSome_findExit {t t' : EdgeTable} {succ : Label}
    (opens : ∀ l, t'.opensBlock l = true → t.opensBlock l = true) {rest : List (StmtId × Action)}
    (throws : ∀ s ∈ rest, t.mayThrowTo m s.1 succ = true →
      t'.mayThrowTo m s.1 succ = true)
    {last : StmtId} {ended : Bool}
    (found : (findExit t m succ exceptional rest last ended).isSome = true) :
    (findExit t' m succ exceptional rest last ended).isSome = true := by
  induction rest generalizing last ended with
  | nil => cases found
  | cons s rest ih =>
    obtain ⟨id, a⟩ := s
    have here := throws (id, a) mem_cons_self
    have further {last ended} := @ih (fun s later => throws s (.tail _ later)) last ended
    unfold findExit at found ⊢
    cases label : a.label? with
    | some l =>
      rw [label] at found
      dsimp only at found ⊢
      split
      · rfl
      next other =>
        rw [if_neg other] at found
        split at found
        · cases found
        next closed =>
          rw [if_neg (mt (opens l) closed)]
          exact further found
    | none =>
      rw [label] at found
      dsimp only at found ⊢
      cases ended with
      | true => cases found
      | false =>
        simp only [Bool.false_eq_true, if_false] at found ⊢
        split
        · rfl
        next notThrown =>
          have notBefore : ¬ (exceptional && t.mayThrowTo m id succ) = true := by grind
          rw [if_neg notBefore] at found
          split
          · rfl
          next notBranched =>
            rw [if_neg notBranched] at found
            split
            next stops =>
              rw [if_pos stops] at found
              cases found
            next falls =>
              rw [if_neg falls] at found
              exact further found

section Alike

section

variable (alike : m.Alike n)

include alike

theorem Alike.blockLabels (plain : m.chain = none) : n.blockLabels = m.blockLabels := by
  have listed : ∀ (ids : List StmtId) (current : Label),
      blockLabelsFrom current (ids.map n.action) = blockLabelsFrom current (ids.map m.action) := by
    intro ids
    induction ids with
    | nil => exact fun _ => rfl
    | cons id ids ih =>
      intro current
      simp only [map_cons, blockLabelsFrom, alike.label?, alike.endsBlock, ih]
  have plain' : n.chain = none := alike.chain.trans plain
  simp only [Method.blockLabels, plain, plain', Option.isNone_none, if_true, actions, alike.order,
    listed]

theorem Alike.find? (l : Label) : n.find? l = m.find? l := by
  simp only [Method.find?, actions, alike.order, findIdx?_map]
  exact congrArg (List.findIdx? · _) (funext fun id => by simp [alike.label? id])

theorem Alike.phiLabels : n.phiLabels = m.phiLabels := by
  have blank : ∀ (state : Label × List Label) (a : Action),
      phiStep state (a.keepArgs fun _ => false) = phiStep state a := by
    intro state a
    cases a <;> rfl
  have step : (fun state id => phiStep state (n.action id)) =
      fun state id => phiStep state (m.action id) := by
    funext state id
    rw [← blank, alike.blank, blank]
  rw [Method.phiLabels, Method.phiLabels, actions, actions, alike.order, foldl_map, foldl_map, step]

theorem Alike.mem_exSuccsOf (tidy : m.Tidy) (tidy' : n.Tidy) (traps : n.traps = m.traps)
    (thrown : index ∈ (Flow.ofMethod m).exSuccsOf position) :
    index ∈ (Flow.ofMethod n).exSuccsOf position := by
  obtain ⟨a, found, throws, t, member, covered, handler⟩ := tidy.mem_exSuccsOf.mp thrown
  obtain ⟨id, here, rfl⟩ := exists_order found
  have here' : n.order.toList[position]? = some id := by rw [alike.order, here]
  have throws' : (n.action id).canThrow = (m.action id).canThrow := by
    simpa using congrArg Action.canThrow (alike.blank id)
  refine tidy'.mem_exSuccsOf.mpr ⟨_, getElem?_actions here', throws'.trans throws, t,
    traps ▸ member, ?_, (alike.find? _).trans handler⟩
  simpa only [Method.covered, alike.find?] using covered

theorem Alike.mayThrowTo (tidy : m.Tidy) (tidy' : n.Tidy) (traps : n.traps = m.traps)
    (here : m.order.toList[position]? = some id)
    (throws : (EdgeTable.ofMethod m).mayThrowTo m id l = true) :
    (EdgeTable.ofMethod n).mayThrowTo n id l = true := by
  unfold EdgeTable.mayThrowTo at throws
  split at throws
  next place placed =>
    rw [tidy.throwsTo_eq here, contains_iff_mem, mem_filterMap] at throws
    obtain ⟨index, thrown, there⟩ := throws
    have at_ : m.order.toList[index]? = some place := by
      simpa [Flow.ofMethod, body, Function.comp_def] using there
    have label := (tidy.label_of_placed l place placed).2
    have found : n.find? l = some index := by
      rw [alike.find?, tidy.find?_eq_some, getElem?_actions at_, label]
    exact tidy'.mayThrowTo (by rw [alike.order, here]) found
      (alike.mem_exSuccsOf tidy tidy' traps thrown)
  · cases throws

theorem Alike.opensBlock (traps : n.traps = m.traps)
    (fewer : ∀ id ∈ m.order.toList, (n.action id).phiArgs ⊆ (m.action id).phiArgs)
    (opens : (EdgeTable.ofMethod n).opensBlock l = true) :
    (EdgeTable.ofMethod m).opensBlock l = true := by
  cases l with
  | nowhere => cases opens
  | number index =>
    rw [opensBlock_iff] at opens ⊢
    refine ⟨?_, alike.placed ▸ opens.2⟩
    rcases opens_iff.mp opens.1 with ⟨a, member, named⟩ | handler | listed
    · obtain ⟨id, listed, rfl⟩ := mem_map.mp member
      rw [alike.order] at listed
      rw [alike.targets] at named
      refine opens_iff.mpr (.inl ⟨m.action id, mem_map_of_mem listed, named.imp_right ?_⟩)
      exact fun inside => map_subset _ (fewer id listed) inside
    · exact opens_iff.mpr (.inr (.inl (traps ▸ handler)))
    · exact opens_iff.mpr (.inr (.inr (alike.phiLabels ▸ listed)))

theorem Alike.isSome_exit? (tidy : m.Tidy) (tidy' : n.Tidy) (traps : n.traps = m.traps)
    (fewer : ∀ id ∈ m.order.toList, (n.action id).phiArgs ⊆ (m.action id).phiArgs)
    {pred succ : Label}
    (found : ((EdgeTable.ofMethod m).exit? m pred succ exceptional).isSome = true) :
    ((EdgeTable.ofMethod n).exit? n pred succ exceptional).isSome = true := by
  rw [alike.exit?]
  unfold EdgeTable.exit? at found ⊢
  cases place : m.find? pred with
  | none =>
    have missing : m.placedAt? pred = none := by
      rwa [← tidy.positionOf?_eq_find?, positionOf?, Option.map_eq_none_iff] at place
    rw [bodyAfter, missing] at found
    cases found
  | some start =>
    obtain ⟨id, after⟩ := tidy.bodyAfter_eq place
    rw [after] at found ⊢
    refine isSome_findExit (fun l => alike.opensBlock traps fewer) (fun s listed throws => ?_) found
    obtain ⟨other, inside, rfl⟩ := mem_map.mp listed
    obtain ⟨position, here⟩ := mem_iff_getElem?.mp (mem_of_mem_drop inside)
    have thrown := alike.mayThrowTo tidy tidy' traps here throws
    rwa [EdgeTable.mayThrowTo, placedAt_congr alike.placed] at thrown

end

theorem Alike.foldl_pruneStep {k : Method} (alike : m.Alike k) (dead : List Label)
    {pairs : List (StmtId × Label)} (made : ∀ pair ∈ pairs, pair.1 < k.stmts.size) :
    m.Alike (pairs.foldl (Method.pruneStep (EdgeTable.ofMethod m) dead) k) := by
  induction pairs generalizing k with
  | nil => exact alike
  | cons pair pairs ih =>
    obtain ⟨alike', ⟨stmts, size, equal⟩, -⟩ :=
      alike.pruneStep dead pair (made pair mem_cons_self)
    refine ih alike' fun other later => ?_
    rw [equal]
    exact size ▸ made other (.tail _ later)

theorem Tidy.alike_prunePhis (tidy : m.Tidy) (dead : List Label) : m.Alike (m.prunePhis dead) := by
  have start : m.Alike m := ⟨rfl, rfl, rfl, fun _ => rfl⟩
  exact start.foldl_pruneStep dead fun pair listed => tidy.made pair.1 (of_mem_zip listed).1

end Alike

/-! ## Dead code -/

/-- What is left without dead code: the same method but for operands of joins. -/
theorem Tidy.alike_removeDeadCode (tidy : m.Tidy) : m.withoutDead.Alike m.removeDeadCode ∧
    m.removeDeadCode.traps = m.liveTraps ∧
      ∀ id ∈ m.withoutDead.order.toList,
        (m.removeDeadCode.action id).phiArgs ⊆ (m.withoutDead.action id).phiArgs := by
  obtain ⟨tidy', -, -, traps⟩ := tidy.withoutDead_with
  obtain ⟨⟨stmts, -, equal⟩, each⟩ :=
    tidy'.prunePhis_with (m.deadStmts.filterMap fun id => (m.action id).label?)
  rw [removeDeadCode_eq]
  refine ⟨tidy'.alike_prunePhis _, by rwa [equal], fun id member => ?_⟩
  obtain ⟨position, here⟩ := mem_iff_getElem?.mp member
  obtain ⟨header, block⟩ : ∃ header, m.withoutDead.blockLabels[position]? = some header :=
    ⟨_, getElem?_eq_getElem (by
      rw [tidy'.length_blockLabels]
      exact (lt_of_get here))⟩
  rw [each position id header here block]
  exact (Action.phiArgs_keepArgs ..).subset

section DeadCode

variable (tidy : m.Tidy) (handlers : ∀ t ∈ m.traps, (m.find? t.handler).isSome = true)

include tidy handlers

theorem Tidy.liveTraps_removeDeadCode : m.removeDeadCode.liveTraps = m.removeDeadCode.traps := by
  have prunes := tidy.prunes_removeDeadCode handlers
  rw [prunes.target.liveTraps_eq]
  refine filter_eq_self.mpr fun t member => ?_
  have live := member
  rw [tidy.alike_removeDeadCode.2.1, tidy.liveTraps_eq] at live
  obtain ⟨-, live⟩ := mem_filter.mp live
  rw [Bool.and_eq_true, any_eq_true, Option.any_eq_true] at live
  obtain ⟨⟨position, -, inside⟩, handler, goal, lands⟩ := live
  rw [Bool.and_eq_true, Flow.isReachable_iff] at inside
  rw [Flow.isReachable_iff] at lands
  have reached := prunes.reaches_rank inside.1
  obtain ⟨id, here, -⟩ := exists_order (getElem?_eq_getElem (lt_of_reaches inside.1))
  have covered := prunes.covered_rank here (prunes.live position id here inside.1) member
  rw [Bool.and_eq_true, any_eq_true, prunes.find?_of_reached goal lands]
  refine ⟨⟨_, mem_range.mpr (by simpa using lt_of_reaches reached), ?_⟩,
    Flow.isReachable_iff.mpr (prunes.reaches_rank lands)⟩
  rw [covered, inside.2, Flow.isReachable_iff.mpr reached]
  rfl

theorem Tidy.staysLive_removeDeadCode {id : StmtId} (member : id ∈ m.removeDeadCode.order.toList) :
    m.removeDeadCode.staysLive id = true := by
  have prunes := tidy.prunes_removeDeadCode handlers
  obtain ⟨index, there⟩ := mem_iff_getElem?.mp member
  have there' := there
  rw [prunes.order] at there'
  obtain ⟨position, here, kept, rfl⟩ := exists_rank there'
  refine (prunes.target.staysLive_iff there).mpr (((tidy.staysLive_iff here).mp kept).imp
    prunes.reaches_rank fun marks => ?_)
  obtain ⟨test, same⟩ := prunes.action id member
  unfold goes at marks ⊢
  rw [tidy.liveTraps_removeDeadCode handlers, tidy.alike_removeDeadCode.2.1, same]
  split at marks
  next label =>
    rwa [label]
  · cases marks

theorem Tidy.withoutDead_removeDeadCode : m.removeDeadCode.withoutDead = m.removeDeadCode := by
  have tidy' := (tidy.prunes_removeDeadCode handlers).target
  rw [withoutDead, tidy.liveTraps_removeDeadCode handlers]
  refine removeWhere_none tidy'.plain fun id member => ?_
  rw [tidy.staysLive_removeDeadCode handlers member]
  rfl

theorem Tidy.deadLabels_removeDeadCode {l : Label}
    (dead : l ∈ m.removeDeadCode.deadStmts.filterMap fun id =>
      (m.removeDeadCode.action id).label?) :
    l ∈ m.deadStmts.filterMap fun id => (m.action id).label? := by
  have prunes := tidy.prunes_removeDeadCode handlers
  obtain ⟨id, listed, label⟩ := mem_filterMap.mp dead
  obtain ⟨entry, inside, rfl⟩ := mem_map.mp listed
  have there := mem_zipIdx_iff_getElem?.mp (mem_filter.mp inside).1
  have there' := there
  rw [prunes.order] at there'
  obtain ⟨position, here, -, same⟩ := exists_rank there'
  refine mem_filterMap.mpr ⟨entry.1, (tidy.mem_deadStmts here).mpr fun reached => ?_, ?_⟩
  · refine (prunes.target.mem_deadStmts there).mp listed ?_
    rw [← same]
    exact prunes.reaches_rank reached
  · obtain ⟨test, action⟩ := prunes.action entry.1 (mem_of_getElem? there)
    rwa [action, Action.label?_keepArgs] at label

theorem Tidy.removeDeadCode_removeDeadCode :
    m.removeDeadCode.removeDeadCode = m.removeDeadCode := by
  obtain ⟨tidyWithout, -, -, trapsWithout⟩ := tidy.withoutDead_with
  obtain ⟨alike, traps, fewer⟩ := tidy.alike_removeDeadCode
  have tidy' := (tidy.prunes_removeDeadCode handlers).target
  have each := (tidyWithout.prunePhis_with (m.deadStmts.filterMap fun id => (m.action id).label?)).2
  rw [← removeDeadCode_eq] at each
  rw [removeDeadCode_eq m.removeDeadCode, tidy.withoutDead_removeDeadCode handlers]
  refine foldl_self fun pair listed => ?_
  obtain ⟨index, there⟩ := mem_iff_getElem?.mp listed
  obtain ⟨here, block⟩ := getElem?_zip_eq_some.mp there
  rw [alike.order] at here
  rw [alike.blockLabels tidyWithout.plain] at block
  have kept := each index pair.1 pair.2 here block
  unfold pruneStep
  split
  next target args action =>
    -- The operands that are left passed the test of the first run, and pass this one.
    have all : args.filter (m.removeDeadCode.survives (m.removeDeadCode.deadStmts.filterMap
        fun id => (m.removeDeadCode.action id).label?) pair.2) = args := by
      refine filter_eq_self.mpr fun arg member => ?_
      have passed : m.withoutDead.survives
          (m.deadStmts.filterMap fun id => (m.action id).label?) pair.2 arg = true := by
        cases before : m.withoutDead.action pair.1 with
        | phi target' args' =>
          rw [before, action] at kept
          obtain ⟨-, rfl⟩ := Action.phi.inj kept
          exact (mem_filter.mp member).2
        | _ =>
          rw [before, action] at kept
          cases kept
      rw [survives, Bool.and_eq_true] at passed ⊢
      refine ⟨?_, alike.isSome_exit? tidyWithout tidy' (traps.trans trapsWithout.symm) fewer passed.2⟩
      have alive := passed.1
      rw [Bool.not_eq_true', ← Bool.not_eq_true, contains_iff_mem] at alive ⊢
      exact mt (tidy.deadLabels_removeDeadCode handlers) alive
    exact (congrArg (fun args => m.removeDeadCode.setAction pair.1 (.phi target args)) all).trans
      (action ▸ setAction_self ..)
  · rfl

end DeadCode

end DexLift.Ir.Method
