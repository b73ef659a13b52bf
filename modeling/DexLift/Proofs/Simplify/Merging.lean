import DexLift.Proofs.Simplify.Relabelling

/-!
# Joins when labels are taken out

Taking out labels and sending references to a label in front of the same run
keeps the blocks, as long as labels with joins stay and none other is sent to
them: a block begins at the label that stands for its old one, has the same
statements, and is left by the same edges. Labels of one run that both name an
edge into a join are the same label, so that operands do not fall together.
-/

namespace DexLift.Ir.Method

open List Ir.Action

variable {target : LocalId} {args : List PhiArg} {l' : Label} {exceptional : Bool} {header : Nat}

structure JoinsStay (m : Method) (keep : StmtId → Bool) (change : Label → Label) : Prop where
  kept : ∀ id ∈ m.order.toList, ∀ l ∈ m.phiLabels, m.action id = .label l → keep id = true
  same : ∀ l ∈ m.phiLabels, change l = l
  only : ∀ l, change l ∈ m.phiLabels → change l = l
  nowhere : change .nowhere = .nowhere

def Stays (m : Method) (keep : StmtId → Bool) (position : Nat) : Prop :=
  ∃ id, m.order.toList[position]? = some id ∧ keep id = true

def Standing.mapLabels (change : Label → Label) (s : Standing) : Standing :=
  ⟨change s.block, s.ended⟩

theorem standing_of_labels {m : Method} {first last : Nat} (le : first ≤ last)
    (labels : ∀ i, first ≤ i → i < last → ∃ l, m.actions[i]? = some (.label l)) :
    (m.standing last = m.standing first ∧
        ∀ i l, first ≤ i → i < last → m.actions[i]? = some (.label l) → m.opens l = false) ∨
      ∃ i l, first ≤ i ∧ i < last ∧ m.actions[i]? = some (.label l) ∧ m.opens l = true ∧
        m.standing last = ⟨l, false⟩ := by
  obtain ⟨count, rfl⟩ := Nat.exists_eq_add_of_le le
  clear le
  induction count with
  | zero => exact .inl ⟨rfl, fun i l low high => absurd high (by omega)⟩
  | succ count ih =>
    obtain ⟨l, found⟩ := labels (first + count) (by omega) (by omega)
    have step : m.standing (first + (count + 1)) =
        (m.standing (first + count)).pass m.opens (.label l) := standing_succ found
    rw [step, Standing.pass]
    split
    next opens => exact .inr ⟨_, l, by omega, by omega, found, opens, rfl⟩
    next closed =>
      rcases ih fun i low high => labels i low (by omega) with
        ⟨same, none⟩ | ⟨i, other, low, high, label, opens, same⟩
      · refine .inl ⟨same, fun i other low high label => ?_⟩
        rcases Nat.lt_or_ge i (first + count) with less | ge
        · exact none i other low less label
        · obtain rfl : i = first + count := by omega
          rw [found] at label
          cases label
          simpa using closed
      · exact .inr ⟨i, other, low, by omega, label, opens, same⟩

namespace Relabels

variable {m n : Method} {keep : StmtId → Bool} {change : Label → Label} {l : Label} {a : Action}
  {position : Nat}

/-! ## Positions -/

section

variable (relabels : m.Relabels n keep change)

include relabels

theorem kept_of_action (found : m.actions[position]? = some a) (plain : a.label? = none) :
    m.Stays keep position := by
  obtain ⟨id, here, rfl⟩ := exists_order found
  exact ⟨id, here, relabels.kept_of_plain here (by simp [isLabel, plain])⟩

theorem label_of_not_kept (found : m.actions[position]? = some a) (gone : ¬ m.Stays keep position) :
    ∃ l, a = .label l := by
  cases label : a.label? with
  | some l => exact ⟨l, label?_eq_some.mp label⟩
  | none => exact absurd (relabels.kept_of_action found label) gone

theorem action_rank (kept : m.Stays keep position) (found : m.actions[position]? = some a) :
    n.actions[rank keep m.order.toList position]? = some (a.mapLabels change) := by
  obtain ⟨id, here, stays⟩ := kept
  rw [getElem?_actions (relabels.thins.at_rank here stays), relabels.action_of_kept here stays]
  rw [getElem?_actions here] at found
  rw [Option.some.inj found]

theorem exists_kept {index : Nat} {b : Action} (found : n.actions[index]? = some b) :
    ∃ position a, m.Stays keep position ∧ m.actions[position]? = some a ∧
      rank keep m.order.toList position = index ∧ b = a.mapLabels change := by
  obtain ⟨id, there, rfl⟩ := exists_order found
  obtain ⟨position, here, stays, same⟩ := relabels.thins.exists_position there
  exact ⟨position, m.action id, ⟨id, here, stays⟩, getElem?_actions here, same,
    relabels.action id (mem_of_getElem? there)⟩

end

theorem rank_lt_iff_of_kept {other : Nat} (kept : m.Stays keep position) :
    rank keep m.order.toList position < rank keep m.order.toList other ↔ position < other := by
  obtain ⟨id, here, stays⟩ := kept
  exact rank_lt_iff here stays

theorem rank_next_of_kept (kept : m.Stays keep position) :
    rank keep m.order.toList (position + 1) = rank keep m.order.toList position + 1 := by
  obtain ⟨id, here, stays⟩ := kept
  exact rank_succ_of_kept here stays

theorem rank_next_of_not_kept (inside : position < m.actions.length)
    (gone : ¬ m.Stays keep position) :
    rank keep m.order.toList (position + 1) = rank keep m.order.toList position := by
  obtain ⟨id, here, -⟩ := exists_order (getElem?_eq_getElem inside)
  refine rank_succ_of_gone here ?_
  cases stays : keep id with
  | false => rfl
  | true => exact absurd ⟨id, here, stays⟩ gone

/-! ## Labels with joins -/

section

variable (relabels : m.Relabels n keep change) (stays : m.JoinsStay keep change)

include relabels stays

section

variable (found : m.actions[position]? = some (.phi target args))

include found

theorem last_kept {header : Nat} {id : StmtId} (here : m.order.toList[header]? = some id)
    (label : m.actions[header]? = some (.label (m.lastLabel position))) : keep id = true := by
  refine stays.kept id (mem_of_getElem? here) _ (mem_phiLabels.mpr ⟨?_, position, target, args, found,
    rfl⟩) (Option.some.inj ((getElem?_actions here).symm.trans label))
  exact relabels.source.ne_nowhere (relabels.source.find?_eq_some.mpr label)

theorem lastLabel_rank : n.lastLabel (rank keep m.order.toList position) = m.lastLabel position :=
  relabels.thins.lastLabel_rank (le_of_lt (lt_of_get found)) fun _ _ _ here label _ =>
    relabels.last_kept stays found here label

end

theorem mem_phiLabels_iff : l ∈ n.phiLabels ↔ l ∈ m.phiLabels := by
  rw [mem_phiLabels, mem_phiLabels]
  refine and_congr_right fun _ => ?_
  constructor
  · rintro ⟨index, target, args, found, same⟩
    obtain ⟨position, a, -, here, rfl, action⟩ := relabels.exists_kept found
    cases a with
    | phi target' args' =>
      exact ⟨position, target', args', here, (relabels.lastLabel_rank stays here).symm.trans same⟩
    | _ => cases action
  · rintro ⟨position, target, args, found, same⟩
    exact ⟨_, _, _, relabels.action_rank (relabels.kept_of_action found rfl) found,
      (relabels.lastLabel_rank stays found).trans same⟩

/-! ## Labels that open blocks -/

theorem opens_iff_exists : n.opens l' = true ↔ ∃ l, m.opens l = true ∧ change l = l' := by
  simp only [opens_iff]
  constructor
  · rintro (⟨b, member, named⟩ | ⟨t, member, rfl⟩ | listed)
    · obtain ⟨index, found⟩ := mem_iff_getElem?.mp member
      obtain ⟨position, a, -, here, -, rfl⟩ := relabels.exists_kept found
      rw [targets_mapLabels, preds_mapLabels] at named
      have exists_ : ∃ l, (l ∈ a.targets ∨ l ∈ a.phiArgs.map PhiArg.pred) ∧ change l = l' := by grind
      obtain ⟨l, inside, same⟩ := exists_
      exact ⟨l, .inl ⟨a, mem_of_getElem? here, inside⟩, same⟩
    · rw [relabels.traps] at member
      obtain ⟨t', inside, rfl⟩ := mem_map.mp member
      exact ⟨t'.handler, .inr (.inl ⟨t', inside, rfl⟩), rfl⟩
    · have inside := (relabels.mem_phiLabels_iff stays).mp listed
      exact ⟨l', .inr (.inr inside), stays.same l' inside⟩
  · rintro ⟨l, ⟨a, member, named⟩ | ⟨t, member, rfl⟩ | listed, rfl⟩
    · obtain ⟨position, found⟩ := mem_iff_getElem?.mp member
      have plain : a.label? = none := by
        cases a with
        | label => rcases named with listed | listed <;> cases listed
        | _ => rfl
      have there := relabels.action_rank (relabels.kept_of_action found plain) found
      refine .inl ⟨_, mem_of_getElem? there, ?_⟩
      rw [targets_mapLabels, preds_mapLabels]
      exact named.imp mem_map_of_mem mem_map_of_mem
    · refine .inr (.inl ⟨t.mapLabels change, ?_, rfl⟩)
      rw [relabels.traps]
      exact mem_map_of_mem member
    · rw [stays.same l listed]
      exact .inr (.inr ((relabels.mem_phiLabels_iff stays).mpr listed))

end

theorem mentioned_or_joined (opens : m.opens l = true) : l ∈ m.mentioned ∨ l ∈ m.phiLabels := by
  rcases opens_iff.mp opens with ⟨a, member, named⟩ | ⟨t, member, rfl⟩ | listed
  · refine .inl (mem_append_left _ (mem_flatMap.mpr ⟨a, member, ?_⟩))
    exact mem_append.mpr named
  · exact .inl (mentioned_of_trap member (.inr (.inr rfl)))
  · exact .inr listed

section

variable (relabels : m.Relabels n keep change) (stays : m.JoinsStay keep change)

include relabels stays

theorem moved_of_opens (opens : m.opens l = true) (found : m.find? l = some position) :
    ∃ first, m.find? (change l) = some first ∧ first ≤ position ∧ m.Stays keep first ∧
      ∀ i, first < i → i ≤ position → ¬ m.Stays keep i := by
  rcases mentioned_or_joined opens with mentioned | joined
  · obtain ⟨first, id, goal, le, here, kept, gone⟩ := relabels.moved l mentioned position found
    refine ⟨first, goal, le, ⟨id, here, kept⟩, ?_⟩
    rintro i low high ⟨other, there, stays⟩
    rw [gone i other low high there] at stays
    cases stays
  · obtain ⟨id, here, label⟩ := exists_order (relabels.source.find?_eq_some.mp found)
    refine ⟨position, by rw [stays.same l joined, found], le_rfl,
      ⟨id, here, stays.kept id (mem_of_getElem? here) l joined label⟩, ?_⟩
    intro i low high
    omega

theorem absent_of_opens (opens : m.opens l = true) (missing : m.find? l = none) :
    m.find? (change l) = none := by
  rcases mentioned_or_joined opens with mentioned | joined
  · exact relabels.absent l mentioned missing
  · rw [stays.same l joined, missing]

/-- The label at a position that stays and has only labels behind it that are taken out stands for
each of them that opened a block. -/
theorem change_eq {first i : Nat} (kept : m.Stays keep first) (le : first ≤ i)
    (gone : ∀ j, first < j → j ≤ i → ¬ m.Stays keep j) (opens : m.opens l = true)
    (label : m.actions[i]? = some (.label l)) : m.actions[first]? = some (.label (change l)) := by
  obtain ⟨place, goal, le', kept', gone'⟩ := relabels.moved_of_opens stays opens
    (relabels.source.find?_eq_some.mpr label)
  have same : place = first := by grind
  rw [← same]
  exact relabels.source.find?_eq_some.mp goal

/-! ## Blocks -/

end

theorem pass_mapLabels {opens opens' : Label → Bool} (s : Standing) (plain : a.label? = none)
    (nowhere : change .nowhere = .nowhere) :
    (s.mapLabels change).pass opens' (a.mapLabels change) = (s.pass opens a).mapLabels change := by
  rw [pass_of_plain _ (by simpa using plain), pass_of_plain _ plain]
  unfold Standing.mapLabels
  dsimp only
  split <;> simp [nowhere]

section

variable (relabels : m.Relabels n keep change) (stays : m.JoinsStay keep change)

include relabels stays

theorem standing_rank {position next : Nat} (le : position ≤ next) (bound : next ≤ m.actions.length)
    (gone : ∀ i, position ≤ i → i < next → ¬ m.Stays keep i)
    (ends : next = m.actions.length ∨ m.Stays keep next) :
    n.standing (rank keep m.order.toList position) = (m.standing next).mapLabels change := by
  have labels : ∀ i, position ≤ i → i < next → ∃ l, m.actions[i]? = some (.label l) := by
    intro i low high
    have found := getElem?_eq_getElem (l := m.actions) (i := i) (by omega)
    obtain ⟨l, same⟩ := relabels.label_of_not_kept found (gone i low high)
    exact ⟨l, by rw [found, same]⟩
  induction position generalizing next with
  | zero =>
    rcases standing_of_labels le labels with ⟨same, -⟩ | ⟨i, l, low, high, label, opens, -⟩
    · rw [same, rank_zero, standing_zero, standing_zero, Standing.mapLabels, stays.nowhere]
    · -- A label that opens a block is sent to one that stays, and none stays here.
      obtain ⟨first, -, le', kept, -⟩ := relabels.moved_of_opens stays opens
        (relabels.source.find?_eq_some.mpr label)
      exact absurd kept (gone first (Nat.zero_le _) (by omega))
  | succ position ih =>
    by_cases kept : m.Stays keep position
    · have before := ih le_rfl (by omega) (fun i low high => absurd high (by omega))
        (.inr kept) fun i low high => absurd high (by omega)
      obtain ⟨id, here, -⟩ := id kept
      have found := getElem?_actions here
      have there := relabels.action_rank kept found
      rw [rank_next_of_kept kept, standing_succ there, before]
      cases label : (m.action id).label? with
      | none =>
        rcases standing_of_labels le labels with ⟨same, -⟩ | ⟨i, l, low, high, isLabel, opens, -⟩
        · rw [same, standing_succ found]
          exact pass_mapLabels _ label stays.nowhere
        · have same := relabels.change_eq stays kept (by omega)
            (fun j low' high' => gone j (by omega) (by omega)) opens isLabel
          rw [found] at same
          rw [Option.some.inj same] at label
          cases label
      | some l₁ =>
        rw [label?_eq_some] at label
        rw [label] at found ⊢
        have labels' : ∀ i, position ≤ i → i < next → ∃ l, m.actions[i]? = some (.label l) := by grind
        rcases standing_of_labels (Nat.le_of_succ_le le) labels' with
          ⟨same, none⟩ | ⟨i, l, low, high, isLabel, opens, same⟩
        · -- No label of the run opened a block, so none opens one now.
          have closed : n.opens l₁ = false := by
            rw [← Bool.not_eq_true, relabels.opens_iff_exists stays]
            rintro ⟨l, opens, rfl⟩
            have goal := relabels.source.find?_eq_some.mpr found
            cases missing : m.find? l with
            | none =>
              rw [relabels.absent_of_opens stays opens missing] at goal
              cases goal
            | some place =>
              obtain ⟨first, goal', le', -, gone'⟩ := relabels.moved_of_opens stays opens missing
              obtain rfl := Option.some.inj (goal.symm.trans goal')
              have isLabel := relabels.source.find?_eq_some.mp missing
              have inside := lt_of_get isLabel
              rcases Nat.lt_or_ge place next with less | ge
              · rw [none place l le' less isLabel] at opens
                cases opens
              · rcases ends with rfl | last
                · omega
                · exact gone' next (by omega) ge last
          rw [same]
          simp [mapLabels, Standing.pass, closed]
        · have changed := relabels.change_eq stays kept low
            (fun j low' high' => gone j (by omega) (by omega)) opens isLabel
          rw [found] at changed
          cases changed
          have opens' : n.opens (change l) = true :=
            (relabels.opens_iff_exists stays).mpr ⟨l, opens, rfl⟩
          rw [same]
          simp [mapLabels, Standing.pass, opens', Standing.mapLabels]
    · rw [rank_next_of_not_kept (by omega) kept]
      refine ih (Nat.le_of_succ_le le) bound ?_ ends ?_
      · intro i low high
        rcases Nat.eq_or_lt_of_le low with rfl | low
        · exact kept
        · exact gone i low high
      · intro i low high
        rcases Nat.eq_or_lt_of_le low with rfl | low
        · have found := getElem?_eq_getElem (l := m.actions) (i := position) (by omega)
          obtain ⟨l, same⟩ := relabels.label_of_not_kept found kept
          exact ⟨l, by rw [found, same]⟩
        · exact labels i low high

theorem standing_of_kept (kept : m.Stays keep position) :
    n.standing (rank keep m.order.toList position) = (m.standing position).mapLabels change := by
  obtain ⟨id, here, -⟩ := id kept
  have inside := (List.getElem?_eq_some_iff.mp (getElem?_actions here)).1
  exact relabels.standing_rank stays le_rfl (Nat.le_of_lt inside)
    (fun i low high => absurd high (by omega)) (.inr kept)

theorem blockAt_rank (found : m.actions[position]? = some a) (plain : a.label? = none) :
    n.blockAt (rank keep m.order.toList position) = change (m.blockAt position) := by
  have kept := relabels.kept_of_action found plain
  rw [blockAt_eq_standing, standing_succ (relabels.action_rank kept found),
    relabels.standing_of_kept stays kept, pass_mapLabels _ plain stays.nowhere,
    blockAt_eq_standing, standing_succ found]
  rfl

theorem runs_iff (opens : m.opens l = true) {start last : Nat} (found : m.find? l = some start)
    (le : start ≤ last) (bound : last ≤ m.actions.length) :
    ∃ start', n.find? (change l) = some start' ∧ start' ≤ rank keep m.order.toList last ∧
      (start < last → start' < rank keep m.order.toList last) ∧
      ((∀ i, start ≤ i → i < last → m.RunsOn i) ↔
        ∀ i, start' ≤ i → i < rank keep m.order.toList last → n.RunsOn i) := by
  obtain ⟨first, goal, le', kept, gone⟩ := relabels.moved_of_opens stays opens found
  obtain ⟨id, here, stays'⟩ := id kept
  have label : m.action id = .label (change l) := by
    have same := getElem?_actions here
    rw [relabels.source.find?_eq_some.mp goal] at same
    exact (Option.some.inj same).symm
  refine ⟨rank keep m.order.toList first, relabels.thins.find?_rank here stays' goal,
    rank_mono (by omega), fun less => (rank_lt_iff_of_kept kept).mpr (by omega), ?_⟩
  constructor
  · intro runs i low high
    have inside : i < n.actions.length := by
      have bound' : rank keep m.order.toList last ≤ n.order.toList.length :=
        relabels.order ▸ rank_le_length
      rw [length_actions]
      simp only [Array.length_toList] at bound'
      omega
    have there := getElem?_eq_getElem inside
    obtain ⟨i', a, kept', here', rfl, same⟩ := relabels.exists_kept there
    have less := (rank_lt_iff_of_kept kept').mp high
    refine ⟨_, there, ?_⟩
    rw [same, fallsThrough_mapLabels]
    rcases Nat.lt_or_ge i' start with early | late
    · -- Between the label and the one that stands for it there are labels only.
      have notBefore : ¬ i' < first := fun before =>
        absurd ((rank_lt_iff_of_kept kept').mpr before) (Nat.not_lt.mpr low)
      rcases Nat.eq_or_lt_of_le (Nat.le_of_not_lt notBefore) with rfl | behind
      · rw [getElem?_actions here] at here'
        rw [← Option.some.inj here', label]
        rfl
      · exact absurd kept' (gone i' behind (le_of_lt early))
    · obtain ⟨b, found', falls⟩ := runs i' late less
      obtain rfl := Option.some.inj (here'.symm.trans found')
      exact falls
  · intro runs i low high
    have found' := getElem?_eq_getElem (l := m.actions) (i := i) (by omega)
    refine ⟨_, found', ?_⟩
    by_cases kept' : m.Stays keep i
    · obtain ⟨b, there, falls⟩ := runs (rank keep m.order.toList i) (rank_mono (by omega))
        ((rank_lt_iff_of_kept kept').mpr high)
      rw [relabels.action_rank kept' found'] at there
      rwa [← Option.some.inj there, fallsThrough_mapLabels] at falls
    · obtain ⟨l', same⟩ := relabels.label_of_not_kept found' kept'
      rw [same]
      rfl

section

variable (found : m.actions[position]? = some a) (plain : a.label? = none)

include found plain

theorem inBlock_rank
    (inside : m.InBlock l position) : n.InBlock (change l) (rank keep m.order.toList position) := by
  have bound := lt_of_get found
  obtain ⟨start, place, le, runs⟩ := inside.runs
  have opens := inside.opens relabels.source bound
  obtain ⟨start', place', le', -, iff⟩ :=
    relabels.runs_iff stays opens place le (le_of_lt bound)
  refine ⟨?_, start', place', le', iff.mp runs⟩
  rw [relabels.blockAt_rank stays found plain, inside.block]

theorem exists_inBlock (inside : n.InBlock l' (rank keep m.order.toList position)) :
    ∃ l, change l = l' ∧ m.InBlock l position := by
  have bound := lt_of_get found
  have block := relabels.blockAt_rank stays found plain
  obtain ⟨start', place', -, runs'⟩ := inside.runs
  have named : m.blockAt position ≠ .nowhere := by
    intro none
    rw [none, stays.nowhere, inside.block] at block
    exact relabels.target.ne_nowhere place' block
  obtain ⟨opens, start, place, less, -⟩ := exists_of_standing relabels.source bound rfl named
  obtain ⟨start'', place'', -, -, iff⟩ :=
    relabels.runs_iff stays opens place (Nat.le_of_lt_succ less) (le_of_lt bound)
  rw [← blockAt_eq_standing, ← block, inside.block, place'] at place''
  obtain rfl := Option.some.inj place''
  exact ⟨m.blockAt position, block.symm.trans inside.block, rfl, start, place,
    Nat.le_of_lt_succ less, iff.mpr runs'⟩

end

/-! ## Edges -/

theorem transfers_iff (found : m.actions[position]? = some a) (plain : a.label? = none)
    (joined : l ∈ m.phiLabels) :
    n.Transfers exceptional l (rank keep m.order.toList position) ↔
      m.Transfers exceptional l position := by
  have there := relabels.action_rank (relabels.kept_of_action found plain) found
  obtain ⟨id, here, rfl⟩ := exists_order found
  have goal : ∀ l', change l' = l ↔ l' = l := by
    intro l'
    constructor
    · rintro rfl
      exact (stays.only l' joined).symm
    · rintro rfl
      exact stays.same l' joined
  unfold Transfers
  rw [there, found]
  simp only [Option.some.injEq, exists_eq_left', canThrow_mapLabels,
    targets_mapLabels]
  cases exceptional with
  | true =>
    simp only [if_true, relabels.traps, mem_map, exists_exists_and_eq_and]
    refine and_congr_right fun _ => exists_congr fun t => and_congr_right fun member => ?_
    rw [relabels.covered_rank here (by simp [isLabel, plain]) member]
    exact and_congr_right fun _ => goal t.handler
  | false => simp [goal]

/-- Control runs on from what stands in front of a label that stays just when it did, and if so in
the block that stands for the old one. -/
theorem inBlock_before (kept : m.Stays keep (position + 1)) (runs : m.RunsOn position)
    (inside : m.InBlock l position) :
    ∃ source, source + 1 = rank keep m.order.toList (position + 1) ∧ n.RunsOn source ∧
      n.InBlock (change l) source := by
  obtain ⟨a, found, -⟩ := id runs
  have bound := lt_of_get found
  obtain ⟨start, place, le, before⟩ := inside.runs
  have opens := inside.opens relabels.source bound
  obtain ⟨start', place', -, less, iff⟩ :=
    relabels.runs_iff stays opens place (Nat.le_succ_of_le le) bound
  have less := less (Nat.lt_succ_of_le le)
  have all := iff.mp (by
    intro i low high
    rcases Nat.lt_succ_iff_lt_or_eq.mp high with high | rfl
    · exact before i low high
    · exact runs)
  obtain ⟨source, same⟩ := Nat.exists_eq_add_of_lt less
  refine ⟨start' + source, same.symm, all _ (by omega) (by omega), ?_, start', place', by omega,
    fun i low high => all i low (by omega)⟩
  rw [blockAt_eq_standing, ← same, relabels.standing_of_kept stays kept, ← inside.block]
  rfl

end

/-- What control runs on from in front of a label that stays came from something that control ran on
from, in the block that stands for the old one. -/
theorem exists_before (relabels : m.Relabels n keep change) {source : Nat}
    (bound : header < m.actions.length) (next : source + 1 = rank keep m.order.toList header)
    (runs : n.RunsOn source) : ∃ position, position + 1 = header ∧ m.RunsOn position := by
  obtain ⟨b, found, falls⟩ := runs
  obtain ⟨i, a, kept', here, same, rfl⟩ := relabels.exists_kept found
  rw [fallsThrough_mapLabels] at falls
  have less : i < header := (rank_lt_iff_of_kept kept').mp (by omega)
  have positive : header - 1 + 1 = header := by omega
  obtain ⟨c, found'⟩ : ∃ c, m.actions[header - 1]? = some c :=
    ⟨_, getElem?_eq_getElem (by omega)⟩
  refine ⟨header - 1, positive, c, found', ?_⟩
  by_cases last : m.Stays keep (header - 1)
  · have step := rank_next_of_kept last
    rw [positive] at step
    have equal : header - 1 = i := by
      rcases Nat.lt_trichotomy (header - 1) i with low | equal | high
      · omega
      · exact equal
      · have before : _ < rank keep m.order.toList (header - 1) :=
          (rank_lt_iff_of_kept kept').mpr high
        omega
    rw [equal, here] at found'
    rwa [← Option.some.inj found']
  · obtain ⟨l', same'⟩ := relabels.label_of_not_kept found' last
    rw [same']
    rfl

section

variable (relabels : m.Relabels n keep change) (stays : m.JoinsStay keep change)

include relabels stays

theorem edgeFrom_iff {joined : Label} (listed : joined ∈ m.phiLabels)
    (label : m.actions[header]? = some (.label joined)) :
    n.EdgeFrom (fun _ => True) l' exceptional (rank keep m.order.toList header) ↔
      ∃ l, change l = l' ∧ m.EdgeFrom (fun _ => True) l exceptional header := by
  have bound := lt_of_get label
  have kept : m.Stays keep header := by
    obtain ⟨id, here, isLabel⟩ := exists_order label
    exact ⟨id, here, stays.kept id (mem_of_getElem? here) joined listed isLabel⟩
  have label' := relabels.action_rank kept label
  constructor
  · rintro ⟨source, -, inside, edge⟩
    rcases (relabels.target.mem_edgesOf label').mp edge with transfers | ⟨normal, next, runs⟩
    · obtain ⟨b, found, -⟩ := id transfers
      obtain ⟨position, a, -, here, rfl, rfl⟩ := relabels.exists_kept found
      have plain : a.label? = none := by simpa using transfers.plain found
      obtain ⟨l, same, inside'⟩ := relabels.exists_inBlock stays here plain inside
      refine ⟨l, same, position, trivial, inside', (relabels.source.mem_edgesOf label).mpr ?_⟩
      exact .inl ((relabels.transfers_iff stays here plain listed).mp transfers)
    · obtain ⟨position, rfl, runs'⟩ := relabels.exists_before bound next runs
      obtain ⟨start', place', le', before⟩ := inside.runs
      have block : change (m.blockAt position) = l' := by
        rw [← inside.block, blockAt_eq_standing n, next, relabels.standing_of_kept stays kept]
        rfl
      have named : m.blockAt position ≠ .nowhere := by
        intro none
        rw [none, stays.nowhere] at block
        exact relabels.target.ne_nowhere place' block.symm
      obtain ⟨opens, start, place, less, -⟩ :=
        exists_of_standing relabels.source (le_of_lt bound) rfl named
      obtain ⟨start'', place'', -, -, iff⟩ :=
        relabels.runs_iff stays opens place (le_of_lt less) (le_of_lt bound)
      rw [← blockAt_eq_standing, block, place'] at place''
      obtain rfl := Option.some.inj place''
      have all := iff.mpr (by
        intro i low high
        rcases Nat.lt_or_ge i source with less | ge
        · exact before i low less
        · obtain rfl : i = source := by omega
          exact runs)
      refine ⟨_, block, position, trivial, ⟨rfl, start, place, Nat.le_of_lt_succ less,
        fun i low high => all i low (by omega)⟩, (relabels.source.mem_edgesOf label).mpr ?_⟩
      exact .inr ⟨normal, rfl, runs'⟩
  · rintro ⟨l, rfl, position, -, inside, edge⟩
    rcases (relabels.source.mem_edgesOf label).mp edge with transfers | ⟨normal, rfl, runs⟩
    · obtain ⟨a, found, -⟩ := id transfers
      have plain := transfers.plain found
      refine ⟨_, trivial, relabels.inBlock_rank stays found plain inside,
        (relabels.target.mem_edgesOf label').mpr ?_⟩
      exact .inl ((relabels.transfers_iff stays found plain listed).mpr transfers)
    · obtain ⟨source, next, runs', inside'⟩ := relabels.inBlock_before stays kept runs inside
      exact ⟨source, trivial, inside',
        (relabels.target.mem_edgesOf label').mpr (.inr ⟨normal, next, runs'⟩)⟩

theorem eq_of_edgeFrom {joined l₁ l₂ : Label} (listed : joined ∈ m.phiLabels)
    (label : m.actions[header]? = some (.label joined)) {exceptional' : Bool}
    (first : m.EdgeFrom (fun _ => True) l₁ exceptional header)
    (second : m.EdgeFrom (fun _ => True) l₂ exceptional' header) (same : change l₁ = change l₂) :
    l₁ = l₂ := by
  have kept : m.Stays keep header := by
    obtain ⟨id, here, isLabel⟩ := exists_order label
    exact ⟨id, here, stays.kept id (mem_of_getElem? here) joined listed isLabel⟩
  -- Of two labels of a run, the earlier one has no edge out of the run.
  have later : ∀ {l l' : Label} {b b' : Bool}, m.EdgeFrom (fun _ => True) l b header →
      m.EdgeFrom (fun _ => True) l' b' header → change l = change l' →
      ∀ {start start'}, m.find? l = some start → m.find? l' = some start' → ¬ start < start' := by
    rintro l l' b b' ⟨source, -, inside, edge⟩ ⟨source', -, inside', edge'⟩ same start start' place
      place' less
    have bound : source < m.actions.length := by
      rcases (relabels.source.mem_edgesOf label).mp edge with ⟨a, found, -⟩ | ⟨-, -, a, found, -⟩
      all_goals exact lt_of_get found
    have bound' : source' < m.actions.length := by
      rcases (relabels.source.mem_edgesOf label).mp edge' with ⟨a, found, -⟩ | ⟨-, -, a, found, -⟩
      all_goals exact lt_of_get found
    have opens' := inside'.opens relabels.source bound'
    obtain ⟨place₁, goal₁, le₁, kept₁, -⟩ :=
      relabels.moved_of_opens stays (inside.opens relabels.source bound) place
    obtain ⟨place₂, goal₂, le₂, -, gone⟩ := relabels.moved_of_opens stays opens' place'
    rw [same, goal₂] at goal₁
    obtain rfl := Option.some.inj goal₁
    obtain ⟨start₁, found₁, le, -⟩ := inside.runs
    obtain rfl := Option.some.inj (place.symm.trans found₁)
    have early : source < start' := by
      by_contra late
      have closed := inside.closed relabels.source bound place less (Nat.le_of_not_lt late)
        (relabels.source.find?_eq_some.mp place')
      rw [opens'] at closed
      cases closed
    have isLabel : ∃ l, m.actions[source]? = some (.label l) := by
      rcases Nat.eq_or_lt_of_le (le_trans le₁ le) with rfl | behind
      · exact ⟨_, relabels.source.find?_eq_some.mp goal₂⟩
      · have found := getElem?_eq_getElem bound
        obtain ⟨l, same⟩ := relabels.label_of_not_kept found (gone source behind (le_of_lt early))
        exact ⟨l, by rw [found, same]⟩
    obtain ⟨l₀, found⟩ := isLabel
    rcases (relabels.source.mem_edgesOf label).mp edge with transfers | ⟨-, next, -⟩
    · cases transfers.plain found
    · exact gone header (by omega) (by omega) kept
  obtain ⟨-, -, ⟨-, start, place, -⟩, -⟩ := id first
  obtain ⟨-, -, ⟨-, start', place', -⟩, -⟩ := id second
  have equal : start = start' := by grind
  subst equal
  have found := relabels.source.find?_eq_some.mp place
  rw [relabels.source.find?_eq_some.mp place'] at found
  cases found
  rfl

theorem exists_header (found : m.actions[position]? = some (.phi target args)) {header' : Nat}
    (block : n.headerOf (rank keep m.order.toList position) = some header') :
    ∃ header, m.headerOf position = some header ∧
      rank keep m.order.toList header = header' := by
  have there := relabels.action_rank (relabels.kept_of_action found rfl) found
  refine relabels.thins.exists_header found rfl there rfl (fun header none last i id low high here =>
    ?_) block
  rcases Nat.eq_or_lt_of_le low with rfl | low
  · exact relabels.last_kept stays found here last
  · refine relabels.kept_of_plain here (Bool.eq_false_iff.mpr fun isLabel => ?_)
    obtain ⟨l, label⟩ := Option.isSome_iff_exists.mp isLabel
    exact none i l low high (by rw [getElem?_actions here, label?_eq_some.mp label])

theorem joinsFit (fit : m.JoinsFit fun _ => True) : n.JoinsFit fun _ => True := by
  intro index target args' header' found block
  obtain ⟨position, a, -, here, rfl, action⟩ := relabels.exists_kept found
  cases a with
  | phi target' args =>
    cases action
    obtain ⟨header, block', rfl⟩ := relabels.exists_header stays here block
    obtain ⟨named, once, ways⟩ := fit position target args header here block'
    obtain ⟨joined, listed, label⟩ := relabels.source.phiLabel_of_header here block'
    have bound := lt_of_get label
    have kept : m.Stays keep header := by
      obtain ⟨id, there, isLabel⟩ := exists_order label
      exact ⟨id, there, stays.kept id (mem_of_getElem? there) joined listed isLabel⟩
    have label' := relabels.action_rank kept label
    have mapped : (args.map fun a => { a with pred := change a.pred }).map PhiArg.way =
        (args.map PhiArg.way).map fun way => (change way.1, way.2) := by
      simp [PhiArg.way]
    refine ⟨?_, ?_, ?_⟩
    · intro source exceptional _ edge
      rcases (relabels.target.mem_edgesOf label').mp edge with transfers | ⟨normal, next, runs⟩
      · obtain ⟨b, found', -⟩ := id transfers
        obtain ⟨place, a, -, here', rfl, rfl⟩ := relabels.exists_kept found'
        have plain : a.label? = none := by simpa using transfers.plain found'
        have edge' := (relabels.source.mem_edgesOf label).mpr
          (.inl ((relabels.transfers_iff stays here' plain listed).mp transfers))
        obtain ⟨l, inside⟩ := named place exceptional trivial edge'
        exact ⟨change l, relabels.inBlock_rank stays here' plain inside⟩
      · obtain ⟨place, rfl, runs'⟩ := relabels.exists_before bound next runs
        have edge' := (relabels.source.mem_edgesOf label).mpr (.inr ⟨normal, rfl, runs'⟩)
        obtain ⟨l, inside⟩ := named place exceptional trivial edge'
        obtain ⟨source', next', -, inside'⟩ := relabels.inBlock_before stays kept runs' inside
        obtain rfl : source' = source := by omega
        exact ⟨change l, inside'⟩
    · rw [mapped]
      refine Nodup.map_on ?_ once
      rintro ⟨l₁, b₁⟩ first ⟨l₂, b₂⟩ second same
      obtain ⟨sameLabel, rfl⟩ := Prod.mk.inj same
      rw [relabels.eq_of_edgeFrom stays listed label ((ways l₁ b₁).mp first)
        ((ways l₂ b₁).mp second) sameLabel]
    · intro l' exceptional
      rw [mapped, relabels.edgeFrom_iff stays listed label]
      simp only [mem_map (f := fun way : Label × Bool => (change way.1, way.2)), Prod.mk.injEq,
        Prod.exists]
      constructor
      · rintro ⟨l, b, member, same, rfl⟩
        exact ⟨l, same, (ways l b).mp member⟩
      · rintro ⟨l, same, edge⟩
        exact ⟨l, exceptional, (ways l exceptional).mpr edge, same, rfl⟩
  | _ => cases action

end

end Relabels

end DexLift.Ir.Method
