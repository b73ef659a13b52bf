import DexLift.Proofs.Ir.Trails
import DexLift.Proofs.Ir.Thinning

/-!
# Bodies with silent statements taken out

Statements that neither transfer control nor mark a place are taken out of a body,
and what those that stay read may change. Labels, targets and handlers stay. A
label that only a join referred to may open a block no longer, and then what
stands behind it belongs to the block in front; no join that stays can tell. So
every trail through the shorter body is one through the longer body, which has
assigned nothing else among the locals that stay.
-/

namespace DexLift.Ir

open List

variable {b : Action} {args : List PhiArg} {index : Nat} {idBefore : StmtId}

/-- A statement that stands for another: both have the same place in the flow of control, and joins
name the same ways in. -/
structure Action.SameForm (a b : Action) : Prop where
  label : b.label? = a.label?
  isPhi : b.isPhi = a.isPhi
  targets : b.targets = a.targets
  falls : b.fallsThrough = a.fallsThrough
  ends : b.endsBlock = a.endsBlock
  defines : b.defines? = a.defines?
  throws : b.canThrow = true → a.canThrow = true
  ways : b.phiArgs.map PhiArg.way = a.phiArgs.map PhiArg.way

theorem Action.SameForm.preds {a : Action} (form : a.SameForm b) :
    b.phiArgs.map PhiArg.pred = a.phiArgs.map PhiArg.pred := by
  have ways := congrArg (map Prod.fst) form.ways
  simpa [map_map, Function.comp_def, PhiArg.way] using ways

theorem Action.SameForm.pass {a : Action} (form : a.SameForm b) (opens : Label → Bool)
    (s : Method.Standing) : s.pass opens b = s.pass opens a := by
  cases label : a.label? with
  | some l =>
    rw [Action.label?_eq_some.mp label, Action.label?_eq_some.mp (form.label.trans label)]
  | none =>
    rw [Method.pass_of_plain _ label, Method.pass_of_plain _ (form.label.trans label), form.ends]

namespace Method

/-- Every join has an operand for the way a trail comes in by, and the operand names a block. -/
def JoinsWhole (m : Method) : Prop :=
  ∀ (position : Nat) (target : LocalId) (args : List PhiArg) (assigned entered : List LocalId)
    (origin : Label × Bool), m.actions[position]? = some (.phi target args) →
    m.Trail position assigned origin entered →
    ∃ arg, picked origin args = some arg ∧ arg.pred ≠ .nowhere

theorem picked_spec {origin : Label × Bool} {arg : PhiArg} (picks : picked origin args = some arg) :
    arg ∈ args ∧ arg.way = origin := by
  unfold picked at picks
  have way := find?_some picks
  rw [Bool.and_eq_true, beq_iff_eq, beq_iff_eq] at way
  exact ⟨mem_of_find?_eq_some picks, Prod.ext way.1 way.2⟩

/-- Control runs on to a join before it comes to a label further down. -/
def Ahead (m : Method) (position : Nat) : Prop :=
  ∃ count, (∃ target args, m.actions[position + count]? = some (.phi target args)) ∧
    (∀ i < count, m.RunsOn (position + i)) ∧
    ∀ i l, 0 < i → i ≤ count → m.actions[position + i]? ≠ some (.label l)

/-- One method is another with some statements taken out and the others changed. -/
structure Sifts (m n : Method) (keep : StmtId → Bool) : Prop where
  tidy : m.Tidy
  tidyTarget : n.Tidy
  order : n.order.toList = m.order.toList.filter keep
  traps : n.traps = m.traps
  silent : ∀ id ∈ m.order.toList, keep id = false →
    (m.action id).label? = none ∧ (m.action id).endsBlock = false
  form : ∀ id ∈ n.order.toList, (m.action id).SameForm (n.action id)

/-- No statement that is taken out defines a local. -/
def Survives (m : Method) (keep : StmtId → Bool) (x : LocalId) : Prop :=
  ∀ id ∈ m.order.toList, keep id = false → (m.action id).defines? ≠ some x

/-- What the statements that stay read, and what their joins pick, stays too, and every trail has
assigned it. -/
structure Backed (m n : Method) (keep : StmtId → Bool) : Prop where
  reads : ∀ (position : Nat) (id : StmtId) (assigned entered : List LocalId) (origin : Label × Bool),
    m.order.toList[position]? = some id → keep id = true →
    m.Trail position assigned origin entered → ∀ x ∈ (n.action id).uses,
      m.Survives keep x ∧ x ∈ assigned
  joins : ∀ (position : Nat) (id : StmtId) (assigned entered : List LocalId) (origin : Label × Bool),
    m.order.toList[position]? = some id → keep id = true →
    m.Trail position assigned origin entered → ∀ arg,
      picked origin (n.action id).phiArgs = some arg →
        m.Survives keep arg.value ∧ arg.value ∈ entered

section Ahead

variable {n : Method} {position : Nat}

theorem ahead_of_phi {target : LocalId} (found : n.actions[position]? = some (.phi target args)) :
    n.Ahead position :=
  ⟨0, ⟨target, args, found⟩, fun _ less => absurd less (Nat.not_lt_zero _),
    fun _ _ low high => absurd low (Nat.not_lt.mpr high)⟩

theorem Ahead.inside (ahead : n.Ahead position) : position < n.actions.length := by
  obtain ⟨count, ⟨target, args, found⟩, -, -⟩ := ahead
  exact lt_of_le_of_lt (Nat.le_add_right ..) (lt_of_get found)

theorem Ahead.before (ahead : n.Ahead (position + 1)) (runs : n.RunsOn position)
    (plain : ∀ l, n.actions[position + 1]? ≠ some (.label l)) : n.Ahead position := by
  obtain ⟨count, found, on, labels⟩ := ahead
  refine ⟨count + 1, by rwa [Nat.add_right_comm] at found, fun i less => ?_, fun i l low high => ?_⟩
  · cases i with
    | zero => exact runs
    | succ i =>
      rw [← Nat.add_assoc, Nat.add_right_comm]
      exact on i (by omega)
  · cases i with
    | zero => exact absurd low (lt_irrefl _)
    | succ i =>
      rw [← Nat.add_assoc, Nat.add_right_comm]
      cases i with
      | zero => exact plain l
      | succ i => exact labels (i + 1) l (Nat.succ_pos _) (by omega)

theorem Ahead.enters (ahead : n.Ahead position) (tidy : n.Tidy) {l : Label}
    (label : n.actions[position]? = some (.label l)) : n.enters position = true := by
  obtain ⟨count, ⟨target, args, found⟩, -, labels⟩ := ahead
  have later : 0 < count := by
    refine Nat.pos_of_ne_zero ?_
    rintro rfl
    cases label.symm.trans found
  have last : n.lastLabel (position + count) = l := by
    refine lastLabel_of_straight label (by omega)
      (le_of_lt (lt_of_get found)) fun i other low high => ?_
    obtain ⟨offset, rfl⟩ := Nat.exists_eq_add_of_lt low
    exact labels (offset + 1) other (Nat.succ_pos _) (by omega)
  unfold Method.enters
  rw [label]
  exact opens_of_phiLabel (mem_phiLabels.mpr
    ⟨tidy.ne_nowhere (tidy.find?_eq_some.mpr label), _, target, args, found, last⟩)

end Ahead

namespace Sifts

variable {m n : Method} {keep : StmtId → Bool} (sifts : m.Sifts n keep) {position other : Nat}
  {id : StmtId} {l : Label} {x : LocalId}

include sifts

/-! ## Positions -/

theorem thins : m.Thins n keep where
  source := sifts.tidy
  target := sifts.tidyTarget
  order := sifts.order
  label id listed := (sifts.form id listed).label
  ends id listed := (sifts.form id listed).ends

theorem kept (here : m.order.toList[position]? = some id) (stays : keep id = true) :
    n.actions[rank keep m.order.toList position]? = some (n.action id) ∧
      (m.action id).SameForm (n.action id) :=
  have there := sifts.thins.at_rank here stays
  ⟨getElem?_actions there, sifts.form id (mem_of_getElem? there)⟩

theorem exists_kept (found : n.actions[index]? = some b) :
    ∃ position id, m.order.toList[position]? = some id ∧ keep id = true ∧
      rank keep m.order.toList position = index ∧ b = n.action id ∧
      (m.action id).SameForm b := by
  obtain ⟨id, there, rfl⟩ := exists_order found
  obtain ⟨position, here, stays, same⟩ := sifts.thins.exists_position there
  exact ⟨position, id, here, stays, same, rfl, sifts.form id (mem_of_getElem? there)⟩

theorem stays_of_label (here : m.order.toList[position]? = some id)
    (label : m.action id = .label l) : keep id = true := by
  by_contra gone
  have plain := (sifts.silent id (mem_of_getElem? here) (by simpa using gone)).1
  rw [label] at plain
  cases plain

theorem label_iff (here : m.order.toList[position]? = some id) (stays : keep id = true) :
    n.actions[rank keep m.order.toList position]? = some (.label l) ↔
      m.actions[position]? = some (.label l) := by
  obtain ⟨there, form⟩ := sifts.kept here stays
  rw [there, getElem?_actions here, Option.some.injEq, Option.some.injEq, ← Action.label?_eq_some,
    ← Action.label?_eq_some, form.label]

theorem find?_rank (found : m.find? l = some position) :
    n.find? l = some (rank keep m.order.toList position) := by
  obtain ⟨id, here, same⟩ := exists_order (sifts.tidy.find?_eq_some.mp found)
  exact sifts.thins.find?_rank here (sifts.stays_of_label here same) found

theorem covered_rank (here : m.order.toList[position]? = some id) (stays : keep id = true)
    (t : Trap) : n.covered t (rank keep m.order.toList position) = m.covered t position := by
  refine sifts.thins.covered_rank here stays fun id member label => ?_
  obtain ⟨place, there⟩ := mem_iff_getElem?.mp member
  exact label.elim (sifts.stays_of_label there) (sifts.stays_of_label there)

/-! ## Blocks -/

theorem phi_iff (here : m.order.toList[position]? = some id) (stays : keep id = true) :
    (∃ target args, n.actions[rank keep m.order.toList position]? = some (.phi target args)) ↔
      ∃ target args, m.actions[position]? = some (.phi target args) := by
  obtain ⟨there, form⟩ := sifts.kept here stays
  have isPhi : ∀ a : Action, (∃ target args, some a = some (.phi target args)) ↔ a.isPhi = true := by
    intro a
    cases a <;> simp [Action.isPhi]
  rw [there, getElem?_actions here, isPhi, isPhi, form.isPhi]

theorem lastLabel_rank (le : position ≤ m.order.toList.length) :
    n.lastLabel (rank keep m.order.toList position) = m.lastLabel position := by
  refine sifts.thins.lastLabel_rank (by simpa using le) fun header id _ here label _ => ?_
  exact sifts.stays_of_label here (Option.some.inj ((getElem?_actions here).symm.trans label))

theorem opens_of_target (opens : n.opens l = true) : m.opens l = true := by
  rw [opens_iff] at opens ⊢
  rcases opens with ⟨b, member, named⟩ | ⟨t, listed, handler⟩ | joins
  · obtain ⟨index, found⟩ := mem_iff_getElem?.mp member
    obtain ⟨position, id, here, stays, -, rfl, form⟩ := sifts.exists_kept found
    refine .inl ⟨m.action id, mem_of_getElem? (getElem?_actions here), ?_⟩
    rwa [form.targets, form.preds] at named
  · exact .inr (.inl ⟨t, sifts.traps ▸ listed, handler⟩)
  · refine .inr (.inr ?_)
    obtain ⟨named, index, target, args, found, last⟩ := mem_phiLabels.mp joins
    obtain ⟨position, id, here, stays, rfl, -⟩ := sifts.exists_kept found
    obtain ⟨target', args', there⟩ := (sifts.phi_iff here stays).mp ⟨target, args, found⟩
    refine mem_phiLabels.mpr ⟨named, position, target', args', there, ?_⟩
    rw [← last, sifts.lastLabel_rank]
    exact le_of_lt (lt_of_get here)

theorem enters_of_target (here : m.order.toList[position]? = some id) (stays : keep id = true)
    (enters : n.enters (rank keep m.order.toList position) = true) : m.enters position = true := by
  unfold Method.enters at enters
  split at enters
  next l label =>
    unfold Method.enters
    rw [(sifts.label_iff here stays).mp label]
    exact sifts.opens_of_target enters
  · cases enters

theorem standing_rank (le : position ≤ m.order.toList.length)
    (named : (m.standing position).block ≠ .nowhere)
    (opens : n.opens (m.standing position).block = true) :
    n.standing (rank keep m.order.toList position) = m.standing position := by
  induction position with
  | zero => rfl
  | succ position ih =>
    have here := getElem?_eq_getElem (Nat.lt_of_succ_le le)
    have before := ih (Nat.le_of_succ_le le)
    rw [standing_succ (getElem?_actions here)] at named opens ⊢
    generalize m.standing position = place at before named opens ⊢
    cases stays : keep m.order.toList[position] with
    | false =>
      obtain ⟨plain, ends⟩ := sifts.silent _ (mem_of_getElem? here) stays
      rw [pass_of_plain _ plain, ends] at named opens ⊢
      rw [rank_succ_of_gone here stays]
      obtain ⟨block, ended⟩ := place
      cases ended with
      | true => exact absurd rfl named
      | false => exact before named opens
    | true =>
      obtain ⟨there, form⟩ := sifts.kept here stays
      rw [rank_succ_of_kept here stays, standing_succ there]
      cases label : (m.action m.order.toList[position]).label? with
      | none =>
        rw [pass_of_plain _ label] at named opens ⊢
        rw [pass_of_plain _ (form.label.trans label), form.ends]
        obtain ⟨block, ended⟩ := place
        cases ended with
        | true => exact absurd rfl named
        | false => rw [before named opens]
      | some l =>
        rw [Action.label?_eq_some] at label
        have labelThere := Action.label?_eq_some.mp (form.label.trans (Action.label?_eq_some.mpr label))
        rw [label] at named opens ⊢
        rw [labelThere]
        simp only [Standing.pass] at named opens ⊢
        by_cases still : n.opens l = true
        · rw [if_pos still, if_pos (sifts.opens_of_target still)]
        · rw [if_neg still]
          by_cases was : m.opens l = true
          · rw [if_pos was] at opens
            exact absurd opens still
          · rw [if_neg was] at named opens ⊢
            exact before named opens

theorem blockAt_rank (here : m.order.toList[position]? = some id) (stays : keep id = true)
    (le : position ≤ other) (inside : other < m.order.toList.length)
    (gone : ∀ i id', position < i → i ≤ other → m.order.toList[i]? = some id' → keep id' = false)
    (named : m.blockAt other ≠ .nowhere) (opens : n.opens (m.blockAt other) = true) :
    n.blockAt (rank keep m.order.toList position) = m.blockAt other := by
  have same : rank keep m.order.toList (other + 1) = rank keep m.order.toList position + 1 := by
    rw [← rank_succ_of_kept here stays]
    refine rank_eq_of_gone (Nat.succ_le_succ le) fun i id' low high there => ?_
    exact gone i id' low (Nat.le_of_lt_succ high) there
  rw [blockAt_eq_standing] at named opens ⊢
  rw [← same, sifts.standing_rank inside named opens]
  rfl

/-! ## Trails -/

section Trails

variable {assigned entered : List LocalId} {origin : Label × Bool}

theorem silent_runs (here : m.order.toList[position]? = some id) (gone : keep id = false) :
    m.enters position = false ∧ (m.action id).fallsThrough = true ∧
      ∀ x ∈ m.definedAt position, ¬ m.Survives keep x := by
  obtain ⟨plain, ends⟩ := sifts.silent id (mem_of_getElem? here) gone
  refine ⟨enters_of_plain (getElem?_actions here) plain, ?_, fun x defined stays => ?_⟩
  · rw [Action.endsBlock, Bool.or_eq_false_iff] at ends
    simpa using ends.2
  · rw [definedAt_eq (getElem?_actions here)] at defined
    exact stays id (mem_of_getElem? here) gone (Option.mem_toList.mp defined)

section

variable (trail : m.Trail position assigned origin entered)

include trail

theorem onward (le : position ≤ other)
    (inside : other < m.order.toList.length)
    (gone : ∀ i id, position ≤ i → i < other → m.order.toList[i]? = some id → keep id = false) :
    ∃ later, m.Trail other later
        (if position < other ∧ m.enters other = true then (m.blockAt (other - 1), false) else origin)
        (if position < other ∧ m.enters other = true then later else entered) ∧
      ∀ x, m.Survives keep x → x ∈ later → x ∈ assigned := by
  induction other, le using Nat.le_induction with
  | base =>
    refine ⟨assigned, ?_, fun _ _ member => member⟩
    rwa [if_neg fun both => lt_irrefl _ both.1, if_neg fun both => lt_irrefl _ both.1]
  | succ i le ih =>
    have here := getElem?_eq_getElem (Nat.lt_of_succ_lt inside)
    obtain ⟨plain, falls, none⟩ := sifts.silent_runs here (gone i _ le (Nat.lt_succ_self i) here)
    obtain ⟨later, before, fewer⟩ := ih (Nat.lt_of_succ_lt inside)
      fun j id low high => gone j id low (Nat.lt_succ_of_lt high)
    rw [if_neg fun both => by simp [plain] at both, if_neg fun both => by simp [plain] at both]
      at before
    have edge : i + 1 ∈ (Flow.ofMethod m).succsOf i := sifts.tidy.mem_succsOf.mpr
      ⟨_, getElem?_actions here, .inl ⟨falls, by simpa [actions] using inside, rfl⟩⟩
    have more := before.normal edge
    refine ⟨m.definedAt i ++ later, ?_, fun x stays member => ?_⟩
    · simp only [Nat.lt_succ_of_le le, true_and, Nat.add_sub_cancel]
      exact more
    · rcases mem_append.mp member with own | earlier
      · exact absurd stays (none x own)
      · exact fewer x stays earlier

theorem onward_next
    (here : m.order.toList[position]? = some id) (stays : keep id = true)
    (falls : (m.action id).fallsThrough = true) (inside : other < m.order.toList.length)
    (next : rank keep m.order.toList other = rank keep m.order.toList position + 1) :
    position < other ∧ ∃ later, m.Trail other later
        (if m.enters other then (m.blockAt (other - 1), false) else origin)
        (if m.enters other then later else entered) ∧
      ∀ x, m.Survives keep x → x ∈ later → x ∈ m.definedAt position ++ assigned := by
  have less : position < other := by
    by_contra le
    have mono : rank keep m.order.toList other ≤ rank keep m.order.toList position :=
      rank_mono (Nat.le_of_not_lt le)
    omega
  have edge : position + 1 ∈ (Flow.ofMethod m).succsOf position := sifts.tidy.mem_succsOf.mpr
    ⟨_, getElem?_actions here, .inl ⟨falls, by
      rw [actions, length_map]
      omega, rfl⟩⟩
  have first := trail.normal edge
  refine ⟨less, ?_⟩
  rcases Nat.eq_or_lt_of_le (Nat.succ_le_of_lt less) with rfl | further
  · exact ⟨_, first, fun _ _ member => member⟩
  · have between := getElem?_eq_getElem (l := m.order.toList) (i := position + 1) (by omega)
    have silent := sifts.silent_runs between
      (gone_between here stays next (Nat.lt_succ_self _) further between)
    rw [silent.1] at first
    obtain ⟨later, there, fewer⟩ := sifts.onward first (Nat.succ_le_of_lt less) inside
      fun i id' low high found => gone_between here stays next (by omega) high found
    refine ⟨later, ?_, fewer⟩
    simpa only [further, true_and, Bool.false_eq_true, if_false] using there

end

theorem named_of_ahead (whole : m.JoinsWhole) (trail : m.Trail position assigned origin entered)
    (here : m.order.toList[position]? = some id) (stays : keep id = true)
    (ahead : n.Ahead (rank keep m.order.toList position)) :
    origin.1 ≠ .nowhere ∧ n.opens origin.1 = true := by
  obtain ⟨count, found, runs, labels⟩ := ahead
  induction count generalizing position id assigned entered with
  | zero =>
    obtain ⟨target, args, isPhi⟩ := (sifts.phi_iff here stays).mp found
    obtain ⟨arg, picks, named⟩ := whole position target args assigned entered origin isPhi trail
    obtain ⟨member, way⟩ := picked_spec picks
    obtain ⟨there, form⟩ := sifts.kept here stays
    have listed : arg.way ∈ (n.action id).phiArgs.map PhiArg.way := by
      rw [form.ways]
      have same : m.action id = .phi target args :=
        Option.some.inj ((getElem?_actions here).symm.trans isPhi)
      rw [same]
      exact mem_map.mpr ⟨arg, member, rfl⟩
    obtain ⟨kept, memberThere, same⟩ := mem_map.mp listed
    rw [← way]
    refine ⟨named, opens_iff.mpr (.inl ⟨_, mem_of_getElem? there, .inr ?_⟩)⟩
    exact mem_map.mpr ⟨kept, memberThere, congrArg Prod.fst same⟩
  | succ count ih =>
    obtain ⟨there, form⟩ := sifts.kept here stays
    obtain ⟨b, same, falls⟩ := runs 0 (Nat.succ_pos _)
    cases there.symm.trans same
    obtain ⟨target, args, isPhi⟩ := found
    have inside := lt_of_get isPhi
    have nextThere := getElem?_eq_getElem (l := n.actions)
      (i := rank keep m.order.toList position + 1) (by omega)
    obtain ⟨next, idNext, hereNext, staysNext, rankNext, -, -⟩ := sifts.exists_kept nextThere
    have falls' : (m.action id).fallsThrough = true := form.falls ▸ falls
    obtain ⟨-, later, more, -⟩ := sifts.onward_next trail here stays falls'
      (lt_of_get hereNext) rankNext
    have plain : m.enters next = false := by
      refine Bool.eq_false_iff.mpr fun enters => ?_
      unfold Method.enters at enters
      split at enters
      next l label =>
        refine labels 1 l Nat.one_pos (by omega) ?_
        rw [← rankNext]
        exact (sifts.label_iff hereNext staysNext).mpr label
      · cases enters
    rw [plain] at more
    refine ih more hereNext staysNext ⟨target, args, ?_⟩ (fun i less => ?_) fun i l low high => ?_
    · rwa [rankNext, Nat.add_assoc, Nat.add_comm 1]
    · rw [rankNext, Nat.add_assoc, Nat.add_comm 1]
      exact runs (i + 1) (by omega)
    · rw [rankNext, Nat.add_assoc, Nat.add_comm 1]
      exact labels (i + 1) l (Nat.succ_pos _) (by omega)

/-- Where a block that has joins ahead is entered, it was entered from the same block. -/
theorem entered_from (whole : m.JoinsWhole) {before out : Nat} {exceptional : Bool}
    {later : List LocalId} {way : Label × Bool}
    (hereBefore : m.order.toList[before]? = some idBefore) (staysBefore : keep idBefore = true)
    (le : before ≤ out) (inside : out < m.order.toList.length)
    (gone : ∀ i id, before < i → i ≤ out → m.order.toList[i]? = some id → keep id = false)
    (here : m.order.toList[position]? = some id) (stays : keep id = true)
    (trail : m.Trail position later
      (if m.enters position then (m.blockAt out, exceptional) else way) entered)
    (ahead : n.Ahead (rank keep m.order.toList position))
    (enters : n.enters (rank keep m.order.toList position) = true) :
    m.enters position = true ∧
      n.blockAt (rank keep m.order.toList before) = m.blockAt out := by
  have entersHere := sifts.enters_of_target here stays enters
  obtain ⟨named, opens⟩ := sifts.named_of_ahead whole trail here stays ahead
  rw [if_pos entersHere] at named opens
  exact ⟨entersHere, sifts.blockAt_rank hereBefore staysBefore le inside gone named opens⟩

theorem ahead_before {before : Nat} (hereBefore : m.order.toList[before]? = some idBefore)
    (staysBefore : keep idBefore = true) (falls : (m.action idBefore).fallsThrough = true)
    (here : m.order.toList[position]? = some id) (stays : keep id = true)
    (next : rank keep m.order.toList position = rank keep m.order.toList before + 1)
    (ahead : n.Ahead (rank keep m.order.toList position))
    (plain : n.enters (rank keep m.order.toList position) ≠ true) :
    m.enters position ≠ true ∧ n.Ahead (rank keep m.order.toList before) := by
  have noLabel : ∀ l, n.actions[rank keep m.order.toList position]? ≠ some (.label l) :=
    fun l label => plain (ahead.enters sifts.tidyTarget label)
  obtain ⟨there, form⟩ := sifts.kept hereBefore staysBefore
  refine ⟨fun enters => ?_, ?_⟩
  · unfold Method.enters at enters
    split at enters
    next l label => exact noLabel l ((sifts.label_iff here stays).mpr label)
    · cases enters
  · rw [next] at ahead noLabel
    exact ahead.before ⟨_, there, form.falls.trans falls⟩ noLabel

theorem not_ahead_start (whole : m.JoinsWhole) (here : m.order.toList[position]? = some id)
    (stays : keep id = true) (first : rank keep m.order.toList position = 0) : ¬ n.Ahead 0 := by
  intro ahead
  have inside := lt_of_get here
  obtain ⟨later, there, -⟩ := sifts.onward .start (Nat.zero_le position)
    inside fun i id' _ less => gone_of_rank_zero first less
  obtain ⟨named, opens⟩ := sifts.named_of_ahead whole there here stays (first.symm ▸ ahead)
  split at named
  next both =>
    rw [if_pos both] at opens
    obtain ⟨less, -⟩ := both
    rw [blockAt_eq_standing, Nat.sub_add_cancel less] at named opens
    have same := sifts.standing_rank (le_of_lt inside) named opens
    rw [first, standing_zero] at same
    rw [← same] at named
    exact absurd rfl named
  · exact absurd rfl named

/-- Every trail through the shorter body is one through the longer body. Of the locals that stay it
has assigned the same; and where a join is ahead, it has come into the block by the same way. -/
theorem lift (whole : m.JoinsWhole) (trail : n.Trail index assigned origin entered)
    (here : m.order.toList[position]? = some id) (stays : keep id = true)
    (same : rank keep m.order.toList position = index) :
    ∃ earlier way earlierEntered, m.Trail position earlier way earlierEntered ∧
      (∀ x, m.Survives keep x → x ∈ earlier → x ∈ assigned) ∧
      (n.Ahead index → origin = way ∧
        ∀ x, m.Survives keep x → x ∈ earlierEntered → x ∈ entered) := by
  have inside := lt_of_get here
  induction trail generalizing position id with
  | start =>
    obtain ⟨later, there, fewer⟩ := sifts.onward .start (Nat.zero_le position)
      inside fun i id' _ less => gone_of_rank_zero same less
    exact ⟨later, _, _, there, fewer, fun ahead =>
      absurd ahead (sifts.not_ahead_start whole here stays same)⟩
  | @normal before index assigned entered origin trail edge ih =>
    obtain ⟨b, found, goes⟩ := sifts.tidyTarget.mem_succsOf.mp edge
    obtain ⟨p, idBefore, hereBefore, staysBefore, rfl, rfl, form⟩ := sifts.exists_kept found
    have insideBefore := lt_of_get hereBefore
    obtain ⟨earlier, way, earlierEntered, lifted, fewer, ways⟩ :=
      ih hereBefore staysBefore rfl insideBefore
    have sameDefined : n.definedAt (rank keep m.order.toList p) = m.definedAt p := by
      rw [definedAt_eq found, definedAt_eq (getElem?_actions hereBefore), form.defines]
    have wider : ∀ x, m.Survives keep x → x ∈ m.definedAt p ++ earlier →
        x ∈ n.definedAt (rank keep m.order.toList p) ++ assigned := by grind
    subst same
    rcases goes with ⟨falls, -, next⟩ | ⟨l, target, there⟩
    · have falls' : (m.action idBefore).fallsThrough = true := form.falls ▸ falls
      obtain ⟨less, later, more, fewerThere⟩ :=
        sifts.onward_next lifted hereBefore staysBefore falls' inside next
      refine ⟨later, _, _, more, fun x staysX member => wider x staysX (fewerThere x staysX member),
        fun ahead => ?_⟩
      by_cases enters : n.enters (rank keep m.order.toList position) = true
      · obtain ⟨entersHere, block⟩ := sifts.entered_from whole hereBefore staysBefore
          (Nat.le_sub_one_of_lt less) (by omega)
          (fun i id' low high between => gone_between hereBefore staysBefore next low (by omega)
            between) here stays more ahead enters
        rw [if_pos enters, if_pos enters, if_pos entersHere, if_pos entersHere, block]
        exact ⟨rfl, fun x staysX member => wider x staysX (fewerThere x staysX member)⟩
      · obtain ⟨plain, aheadBefore⟩ := sifts.ahead_before hereBefore staysBefore falls' here stays
          next ahead enters
        rw [if_neg enters, if_neg enters, if_neg plain, if_neg plain]
        exact ways aheadBefore
    · obtain ⟨position', -, -, -, rank', found'⟩ := sifts.thins.exists_find? there
      obtain ⟨id', here', label⟩ := exists_order (sifts.tidy.find?_eq_some.mp found')
      obtain rfl := rank_inj here' (sifts.stays_of_label here' label) here stays rank'
      have more := lifted.normal (sifts.tidy.mem_succsOf.mpr
        ⟨_, getElem?_actions hereBefore, .inr ⟨l, form.targets ▸ target, found'⟩⟩)
      refine ⟨_, _, _, more, wider, fun ahead => ?_⟩
      have enters := ahead.enters sifts.tidyTarget (sifts.tidyTarget.find?_eq_some.mp there)
      obtain ⟨entersHere, block⟩ := sifts.entered_from whole hereBefore staysBefore le_rfl
        insideBefore (fun i id' low high _ => absurd low (Nat.not_lt.mpr high)) here stays more ahead
        enters
      rw [if_pos enters, if_pos enters, if_pos entersHere, if_pos entersHere, block]
      exact ⟨rfl, wider⟩
  | @thrown before index assigned entered origin trail edge ih =>
    obtain ⟨b, found, throws, t, listed, covers, there⟩ := sifts.tidyTarget.mem_exSuccsOf.mp edge
    obtain ⟨p, idBefore, hereBefore, staysBefore, rfl, rfl, form⟩ := sifts.exists_kept found
    have insideBefore := lt_of_get hereBefore
    obtain ⟨earlier, way, earlierEntered, lifted, fewer, ways⟩ :=
      ih hereBefore staysBefore rfl insideBefore
    subst same
    rw [sifts.traps] at listed
    rw [sifts.covered_rank hereBefore staysBefore] at covers
    obtain ⟨position', -, -, -, rank', found'⟩ := sifts.thins.exists_find? there
    obtain ⟨id', here', label⟩ := exists_order (sifts.tidy.find?_eq_some.mp found')
    obtain rfl := rank_inj here' (sifts.stays_of_label here' label) here stays rank'
    have more := lifted.thrown (sifts.tidy.mem_exSuccsOf.mpr
      ⟨_, getElem?_actions hereBefore, form.throws throws, t, listed, covers, found'⟩)
    refine ⟨_, _, _, more, fewer, fun ahead => ?_⟩
    have enters := ahead.enters sifts.tidyTarget (sifts.tidyTarget.find?_eq_some.mp there)
    obtain ⟨entersHere, block⟩ := sifts.entered_from whole hereBefore staysBefore le_rfl
      insideBefore (fun i id' low high _ => absurd low (Nat.not_lt.mpr high)) here stays more ahead
      enters
    rw [if_pos enters, if_pos enters, if_pos entersHere, if_pos entersHere, block]
    exact ⟨rfl, fewer⟩

end Trails

/-! ## Single assignment -/

theorem joinsWhole (whole : m.JoinsWhole) : n.JoinsWhole := by
  intro index target args assigned entered origin found trail
  obtain ⟨position, id, here, stays, same, action, form⟩ := sifts.exists_kept found
  obtain ⟨earlier, way, earlierEntered, lifted, -, ways⟩ := sifts.lift whole trail here stays same
  obtain ⟨rfl, -⟩ := ways (ahead_of_phi found)
  obtain ⟨old, oldArgs, isPhi⟩ := (sifts.phi_iff here stays).mp ⟨target, args, same ▸ found⟩
  obtain ⟨arg, picks, named⟩ := whole position old oldArgs _ _ _ isPhi lifted
  obtain ⟨member, way⟩ := picked_spec picks
  have listed : arg.way ∈ args.map PhiArg.way := by
    have sameWays : args.map PhiArg.way = oldArgs.map PhiArg.way := by
      have ways := form.ways
      rwa [Option.some.inj ((getElem?_actions here).symm.trans isPhi)] at ways
    rw [sameWays]
    exact mem_map.mpr ⟨arg, member, rfl⟩
  obtain ⟨kept, memberThere, sameWay⟩ := mem_map.mp listed
  obtain ⟨chosen, picksThere⟩ : ∃ chosen, picked origin args = some chosen := by
    rw [← Option.isSome_iff_exists, picked, find?_isSome]
    refine ⟨kept, memberThere, ?_⟩
    rw [← way, ← sameWay]
    simp [PhiArg.way]
  refine ⟨chosen, picksThere, ?_⟩
  have pred : chosen.pred = arg.pred :=
    (congrArg Prod.fst (picked_spec picksThere).2).trans (congrArg Prod.fst way).symm
  rwa [pred]

theorem singleAssignment (whole : m.JoinsWhole) (single : m.SingleAssignment)
    (backed : m.Backed n keep) : n.SingleAssignment where
  once := by
    intro index otherIndex a b x found foundOther own ownOther
    obtain ⟨p, id, here, stays, rfl, -, form⟩ := sifts.exists_kept found
    obtain ⟨q, idOther, there, staysOther, rfl, -, formOther⟩ := sifts.exists_kept foundOther
    rw [single.once p q _ _ x (getElem?_actions here) (getElem?_actions there)
      (form.defines ▸ own) (formOther.defines ▸ ownOther)]
  reads := by
    intro index a x found read
    rw [assigns_iff]
    intro assigned origin entered trail
    obtain ⟨position, id, here, stays, same, rfl, -⟩ := sifts.exists_kept found
    obtain ⟨earlier, way, earlierEntered, lifted, fewer, -⟩ :=
      sifts.lift whole trail here stays same
    obtain ⟨survives, member⟩ := backed.reads position id _ _ _ here stays lifted x read
    exact fewer x survives member
  joins := by
    intro index target args arg assigned entered origin found trail picks
    obtain ⟨position, id, here, stays, same, action, -⟩ := sifts.exists_kept found
    obtain ⟨earlier, way, earlierEntered, lifted, -, ways⟩ := sifts.lift whole trail here stays same
    obtain ⟨rfl, fewer⟩ := ways (ahead_of_phi found)
    obtain ⟨survives, member⟩ := backed.joins position id _ _ _ here stays lifted arg (by
      rw [← action]
      exact picks)
    exact fewer _ survives member

end Sifts

end Method

end DexLift.Ir
