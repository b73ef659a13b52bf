import DexLift.Proofs.Ir.Thinning

/-!
# Taking out what cannot be reached

A method prunes another when it lacks statements that cannot be reached, traps
that take nothing that can be thrown, and operands of joins. What can be reached
is the same, and so are the edges between reachable statements. Control comes to
a position inside a block only from the position in front of it, so a reachable
position of a block has everything behind the label of the block reachable.

A reachable statement keeps its block as long as the label of the block still
opens one, and its edges. So the operands of a join fit the remaining edges when
they are those of the edges out of reachable statements: each of them names its
block, so that the label goes on opening it.
-/

namespace DexLift.Ir

open List Ir.Flow Ir.Action

/-- The statement with the operands of a join that pass a test. -/
def Action.keepArgs (test : PhiArg → Bool) : Action → Action
  | .phi target args => .phi target (args.filter test)
  | action => action

namespace Action

variable (test : PhiArg → Bool) (a : Action)

@[simp] theorem label?_keepArgs : (a.keepArgs test).label? = a.label? := by cases a <;> rfl
@[simp] theorem isLabel_keepArgs : (a.keepArgs test).isLabel = a.isLabel := by cases a <;> rfl
@[simp] theorem branches_keepArgs : (a.keepArgs test).branches = a.branches := by cases a <;> rfl
@[simp] theorem targets_keepArgs : (a.keepArgs test).targets = a.targets := by cases a <;> rfl
@[simp] theorem fallsThrough_keepArgs : (a.keepArgs test).fallsThrough = a.fallsThrough := by
  cases a <;> rfl
@[simp] theorem endsBlock_keepArgs : (a.keepArgs test).endsBlock = a.endsBlock := by
  cases a <;> rfl
@[simp] theorem canThrow_keepArgs : (a.keepArgs test).canThrow = a.canThrow := by cases a <;> rfl

theorem keepArgs_true : (a.keepArgs fun _ => true) = a := by cases a <;> simp [keepArgs]

theorem phiArgs_keepArgs : (a.keepArgs test).phiArgs.Sublist a.phiArgs := by
  cases a with
  | phi target args => exact filter_sublist
  | _ => exact .refl _

end Action

namespace Method

variable {start index other : Nat} {b : Action}

variable {m : Method} {position : Nat} {l : Label} {a : Action}

/-! ## Where control comes from -/

section

variable (tidy : m.Tidy)

include tidy

theorem Tidy.reaches_before (reached : (ofMethod m).Reaches (position + 1))
    (closed : ∀ l, m.actions[position + 1]? = some (.label l) → m.opens l = false) :
    (ofMethod m).Reaches position ∧ m.RunsOn position := by
  cases reached with
  | edge before edge inside =>
    rcases edge with normal | thrown
    · obtain ⟨a, found, ⟨falls, -, same⟩ | ⟨l, listed, goal⟩⟩ := tidy.mem_succsOf.mp normal
      · obtain rfl := Nat.succ.inj same
        exact ⟨before, a, found, falls⟩
      · have opens : m.opens l = true :=
          opens_iff.mpr (.inl ⟨a, mem_of_getElem? found, .inl listed⟩)
        rw [closed l (tidy.find?_eq_some.mp goal)] at opens
        cases opens
    · obtain ⟨a, -, -, t, member, -, goal⟩ := tidy.mem_exSuccsOf.mp thrown
      have opens : m.opens t.handler = true := opens_iff.mpr (.inr (.inl ⟨t, member, rfl⟩))
      rw [closed _ (tidy.find?_eq_some.mp goal)] at opens
      cases opens

theorem Tidy.reaches_next (reached : (ofMethod m).Reaches position)
    (runs : m.RunsOn position) (inside : position + 1 < m.actions.length) :
    (ofMethod m).Reaches (position + 1) := by
  obtain ⟨a, found, falls⟩ := runs
  exact reached.edge (.inl (tidy.mem_succsOf.mpr ⟨a, found, .inl ⟨falls, inside, rfl⟩⟩))
    (by simpa using inside)

/-- Where nothing but the first position is a label that opens a block, the last position is
reached through all of them. -/
theorem Tidy.reaches_between {first last : Nat} (le : first ≤ last)
    (reached : (ofMethod m).Reaches last)
    (closed : ∀ i l, first < i → i ≤ last → m.actions[i]? = some (.label l) → m.opens l = false) :
    ∀ i, first ≤ i → i ≤ last →
      (ofMethod m).Reaches i ∧ (i < last → m.RunsOn i) := by
  obtain ⟨count, rfl⟩ := Nat.exists_eq_add_of_le le
  clear le
  induction count with
  | zero =>
    intro i low high
    obtain rfl := le_antisymm high low
    exact ⟨reached, fun less => absurd less (lt_irrefl _)⟩
  | succ count ih =>
    obtain ⟨before, runs⟩ : (ofMethod m).Reaches (first + count) ∧ m.RunsOn (first + count) :=
      tidy.reaches_before reached fun l label => closed _ l (by omega) (by omega) label
    intro i low high
    have earlier := ih before fun i l low high label => closed i l low (by omega) label
    rcases Nat.lt_or_ge (first + count) i with behind | inFront
    · obtain rfl : i = first + (count + 1) := by omega
      exact ⟨reached, fun less => absurd less (lt_irrefl _)⟩
    · refine ⟨(earlier i low inFront).1, fun _ => ?_⟩
      rcases Nat.eq_or_lt_of_le inFront with rfl | less
      · exact runs
      · exact (earlier i low inFront).2 less

theorem InBlock.reaches (inside : m.InBlock l position)
    (reached : (ofMethod m).Reaches position) (lt : position < m.actions.length)
    (found : m.find? l = some start) {i : Nat} (low : start ≤ i) (high : i ≤ position) :
    (ofMethod m).Reaches i := by
  refine (tidy.reaches_between (le_trans low high) reached ?_ i low high).1
  exact fun i other low high label => inside.closed tidy lt found low high label

theorem InBlock.reached (inside : m.InBlock l position)
    (lt : position < m.actions.length) (found : m.find? l = some start)
    (reached : (ofMethod m).Reaches start) : (ofMethod m).Reaches position := by
  obtain ⟨start', found', le, runs⟩ := inside.runs
  obtain rfl := Option.some.inj (found.symm.trans found')
  obtain ⟨count, rfl⟩ := Nat.exists_eq_add_of_le le
  clear le inside
  induction count with
  | zero => exact reached
  | succ count ih =>
    exact tidy.reaches_next (ih (by omega) fun i low high => runs i low (by omega))
      (runs (start + count) (by omega) (by omega)) lt

end

/-! ## Pruned methods -/

/-- The second method is the first one without some statements that cannot be reached, without traps
that take nothing, and with fewer operands of joins. -/
structure Prunes (m n : Method) (keep : StmtId → Bool) : Prop where
  source : m.Tidy
  target : n.Tidy
  order : n.order.toList = m.order.toList.filter keep
  action : ∀ id ∈ n.order.toList, ∃ test, n.action id = (m.action id).keepArgs test
  traps : ∃ takes, n.traps = m.traps.filter takes ∧
    ∀ position a, (Flow.ofMethod m).Reaches position → m.actions[position]? = some a →
      a.canThrow = true → ∀ t ∈ m.traps, m.covered t position = true → takes t = true
  bounds : ∀ t ∈ n.traps, ∀ id ∈ m.order.toList,
    m.action id = .label t.start ∨ m.action id = .label t.stop → keep id = true
  live : ∀ position id, m.order.toList[position]? = some id →
    (Flow.ofMethod m).Reaches position → keep id = true
  dead : ∀ position id, m.order.toList[position]? = some id → (m.action id).isLabel = false →
    keep id = true → (Flow.ofMethod m).Reaches position

namespace Prunes

variable {n : Method} {keep : StmtId → Bool} {id : StmtId}

/-! ### Positions -/

section

variable (prunes : m.Prunes n keep)

include prunes

theorem thins : m.Thins n keep where
  source := prunes.source
  target := prunes.target
  order := prunes.order
  label id listed := by
    obtain ⟨test, same⟩ := prunes.action id listed
    rw [same, label?_keepArgs]
  ends id listed := by
    obtain ⟨test, same⟩ := prunes.action id listed
    rw [same, endsBlock_keepArgs]

theorem action_rank (reached : (ofMethod m).Reaches position)
    (found : m.actions[position]? = some a) :
    ∃ test, n.actions[rank keep m.order.toList position]? = some (a.keepArgs test) := by
  obtain ⟨id, here, rfl⟩ := exists_order found
  have there := prunes.thins.at_rank here (prunes.live position id here reached)
  obtain ⟨test, same⟩ := prunes.action id (mem_of_getElem? there)
  exact ⟨test, by rw [getElem?_actions there, same]⟩

theorem exists_position (found : n.actions[index]? = some b) :
    ∃ position id test, m.order.toList[position]? = some id ∧ keep id = true ∧
      rank keep m.order.toList position = index ∧ b = (m.action id).keepArgs test := by
  obtain ⟨id, there, rfl⟩ := exists_order found
  obtain ⟨test, same⟩ := prunes.action id (mem_of_getElem? there)
  obtain ⟨position, here, kept, equal⟩ := prunes.thins.exists_position there
  exact ⟨position, id, test, here, kept, equal, same⟩

end

section

variable (prunes : m.Prunes n keep) (reached : (ofMethod m).Reaches position)
  (found : m.actions[position]? = some a)

include prunes reached found

theorem rank_succ :
    rank keep m.order.toList (position + 1) = rank keep m.order.toList position + 1 := by
  obtain ⟨id, here, -⟩ := exists_order found
  exact rank_succ_of_kept here (prunes.live position id here reached)

theorem rank_lt_iff :
    rank keep m.order.toList position < rank keep m.order.toList other ↔ position < other := by
  obtain ⟨id, here, -⟩ := exists_order found
  exact Ir.rank_lt_iff here (prunes.live position id here reached)

theorem rank_inj (reached' : (ofMethod m).Reaches other) (found' : m.actions[other]? = some b)
    (same : rank keep m.order.toList position = rank keep m.order.toList other) :
    position = other := by
  have notLess : ¬ position < other := mt (prunes.rank_lt_iff reached found).mpr
    (Nat.not_lt.mpr (le_of_eq same.symm))
  have notGreater : ¬ other < position := mt (prunes.rank_lt_iff reached' found').mpr
    (Nat.not_lt.mpr (le_of_eq same))
  omega

end

section

variable (prunes : m.Prunes n keep)

include prunes

/-! ### What can be reached -/

theorem covered_rank (here : m.order.toList[position]? = some id) (kept : keep id = true) {t : Trap}
    (member : t ∈ n.traps) :
    n.covered t (rank keep m.order.toList position) = m.covered t position :=
  prunes.thins.covered_rank here kept (prunes.bounds t member)

theorem caughtAt_rank (reached : (ofMethod m).Reaches position)
    (found : m.actions[position]? = some a) (throws : a.canThrow = true) :
    n.caughtAt (rank keep m.order.toList position) = m.caughtAt position := by
  obtain ⟨id, here, -⟩ := exists_order found
  obtain ⟨takes, traps, all⟩ := prunes.traps
  rw [caughtAt, caughtAt, traps, filter_filter]
  refine filter_congr fun t member => ?_
  cases stays : takes t with
  | true =>
    rw [Bool.and_true]
    refine prunes.covered_rank here (prunes.live position id here reached) ?_
    rw [traps]
    exact mem_filter.mpr ⟨member, stays⟩
  | false =>
    rw [Bool.and_false]
    refine (Bool.eq_false_iff.mpr fun covered => ?_).symm
    rw [all position a reached found throws t member covered] at stays
    cases stays

theorem find?_of_reached (found : m.find? l = some position)
    (reached : (ofMethod m).Reaches position) :
    n.find? l = some (rank keep m.order.toList position) := by
  obtain ⟨id, here, -⟩ := exists_order (prunes.source.find?_eq_some.mp found)
  exact prunes.thins.find?_rank here (prunes.live position id here reached) found

theorem reaches_rank (reached : (ofMethod m).Reaches position) :
    (ofMethod n).Reaches (rank keep m.order.toList position) := by
  have bounded : ∀ {position}, (ofMethod m).Reaches position →
      position < m.actions.length →
        rank keep m.order.toList position < (ofMethod n).size := by
    intro position reached inside
    obtain ⟨test, found⟩ := prunes.action_rank reached (getElem?_eq_getElem inside)
    simpa using (lt_of_get found)
  induction reached with
  | start inside =>
    exact .start (bounded (.start inside) (by simpa using inside))
  | @edge position next before edge inside ih =>
    have reached : (ofMethod m).Reaches next := before.edge edge inside
    refine ih.edge ?_ (bounded reached (by simpa using inside))
    rcases edge with normal | thrown
    · obtain ⟨a, found, way⟩ := prunes.source.mem_succsOf.mp normal
      obtain ⟨test, found'⟩ := prunes.action_rank before found
      refine .inl (prunes.target.mem_succsOf.mpr ⟨_, found', ?_⟩)
      rw [fallsThrough_keepArgs, targets_keepArgs]
      rcases way with ⟨falls, lt, rfl⟩ | ⟨l, listed, goal⟩
      · have bound := bounded reached lt
        rw [prunes.rank_succ before found] at bound ⊢
        exact .inl ⟨falls, by simpa using bound, rfl⟩
      · exact .inr ⟨l, listed, prunes.find?_of_reached goal reached⟩
    · obtain ⟨a, found, throws, t, member, covered, goal⟩ := prunes.source.mem_exSuccsOf.mp thrown
      obtain ⟨test, found'⟩ := prunes.action_rank before found
      have listed : t ∈ n.caughtAt (rank keep m.order.toList position) := by
        rw [prunes.caughtAt_rank before found throws]
        exact mem_filter.mpr ⟨member, covered⟩
      obtain ⟨member', covered'⟩ := mem_filter.mp listed
      exact .inr (prunes.target.mem_exSuccsOf.mpr ⟨_, found', by simpa using throws, t, member',
        covered', prunes.find?_of_reached goal reached⟩)

theorem exists_reached (reached : (ofMethod n).Reaches index) :
    ∃ position, (ofMethod m).Reaches position ∧
      rank keep m.order.toList position = index := by
  induction reached with
  | start inside =>
    refine ⟨0, .start ?_, rfl⟩
    have shorter := (filter_sublist (p := keep) (l := m.order.toList)).length_le
    rw [← prunes.order] at shorter
    simp only [size_ofMethod, Array.length_toList] at inside shorter ⊢
    omega
  | @edge index next _ edge inside ih =>
    obtain ⟨position, reached, rfl⟩ := ih
    have jumped : ∀ {l}, n.find? l = some next →
        (∀ target, m.find? l = some target → (target ∈ (ofMethod m).succsOf position ∨
          target ∈ (ofMethod m).exSuccsOf position)) →
        ∃ target, (ofMethod m).Reaches target ∧ rank keep m.order.toList target = next := by
      intro l goal way
      obtain ⟨target, -, -, -, same, found⟩ := prunes.thins.exists_find? goal
      exact ⟨target, reached.edge (way target found)
        (by simpa using prunes.source.lt_of_find? found), same⟩
    have inside' : position < m.actions.length := by
      cases reached with
      | start inside | edge _ _ inside => simpa using inside
    have found := getElem?_eq_getElem inside'
    obtain ⟨test, there⟩ := prunes.action_rank reached found
    rcases edge with normal | thrown
    · obtain ⟨b, found', way⟩ := prunes.target.mem_succsOf.mp normal
      obtain rfl := Option.some.inj (there.symm.trans found')
      rw [fallsThrough_keepArgs, targets_keepArgs] at way
      rcases way with ⟨falls, lt, rfl⟩ | ⟨l, listed, goal⟩
      · have runs : m.RunsOn position := ⟨_, found, falls⟩
        have step := prunes.rank_succ reached found
        refine ⟨position + 1, prunes.source.reaches_next reached runs ?_, step⟩
        rw [length_actions, ← Array.length_toList, prunes.order, ← step] at lt
        by_contra outside
        have all : m.order.toList.length ≤ position + 1 := by
          rw [length_actions] at outside
          simpa using outside
        rw [rank, take_of_length_le all, countP_eq_length_filter] at lt
        exact lt_irrefl _ lt
      · exact jumped goal fun target goal' =>
          .inl (prunes.source.mem_succsOf.mpr ⟨_, found, .inr ⟨l, listed, goal'⟩⟩)
    · obtain ⟨b, found', throws, t, member, covered, goal⟩ := prunes.target.mem_exSuccsOf.mp thrown
      obtain rfl := Option.some.inj (there.symm.trans found')
      rw [canThrow_keepArgs] at throws
      have listed : t ∈ m.caughtAt position := by
        rw [← prunes.caughtAt_rank reached found throws]
        exact mem_filter.mpr ⟨member, covered⟩
      obtain ⟨member', covered'⟩ := mem_filter.mp listed
      exact jumped goal fun target goal' =>
        .inr (prunes.source.mem_exSuccsOf.mpr ⟨_, found, throws, t, member', covered', goal'⟩)

/-! ### The flow is the same -/

theorem landing_of_reached (reached : (ofMethod m).Reaches position) :
    n.landing (rank keep m.order.toList position) = m.landing position := by
  refine prunes.thins.landing_rank fun id lands => ?_
  obtain ⟨place, here, reached'⟩ := prunes.source.reaches_landing reached lands
  exact prunes.live place id here reached'

theorem landing_find? (reached : ∀ target, m.find? l = some target → (ofMethod m).Reaches target) :
    (n.find? l).bind n.landing = (m.find? l).bind m.landing := by
  cases found : m.find? l with
  | none =>
    have missing : n.find? l = none := by
      refine Option.eq_none_iff_forall_ne_some.mpr fun index found' => ?_
      obtain ⟨p, -, -, -, -, found''⟩ := prunes.thins.exists_find? found'
      rw [found] at found''
      cases found''
    rw [missing]
    rfl
  | some target =>
    rw [prunes.find?_of_reached found (reached target found)]
    exact prunes.landing_of_reached (reached target found)

theorem sameFlow : m.SameFlow n := by
  refine ⟨?_, ?_, ?_⟩
  · have first : n.landing (rank keep m.order.toList 0) = m.landing 0 := ?_
    · exact first
    refine prunes.thins.landing_rank fun id lands => ?_
    obtain ⟨place, -, here, -⟩ := exists_of_landing lands
    have bound := lt_of_get here
    have start : (ofMethod m).Reaches 0 := by
      refine .start ?_
      simp only [size_ofMethod, Array.length_toList] at bound ⊢
      omega
    obtain ⟨place, here, reached⟩ := prunes.source.reaches_landing start lands
    exact prunes.live place id here reached
  · rintro id ⟨position, here, live⟩ plain next
    have reached := isReachable_iff.mp live
    have found := getElem?_actions here
    have there := prunes.thins.at_rank here (prunes.live position id here reached)
    obtain ⟨test, same⟩ := prunes.action id (mem_of_getElem? there)
    rw [prunes.target.follows_iff there, prunes.source.follows_iff here, same,
      fallsThrough_keepArgs, targets_keepArgs, ← prunes.rank_succ reached found]
    refine or_congr (and_congr_right fun falls => ?_) (exists_congr fun l =>
      and_congr_right fun listed => ?_)
    · rw [prunes.thins.landing_rank fun id lands => ?_]
      obtain ⟨place, le, at_, -⟩ := exists_of_landing lands
      have bound := lt_of_get at_
      have next := prunes.source.reaches_next reached ⟨_, found, falls⟩ (by
        simp only [length_actions, Array.length_toList] at bound ⊢
        omega)
      obtain ⟨place, here', reached'⟩ := prunes.source.reaches_landing next lands
      exact prunes.live place id here' reached'
    · have goes := prunes.landing_find? (l := l) fun target goal =>
        reached.edge (.inl (prunes.source.mem_succsOf.mpr ⟨_, found, .inr ⟨l, listed, goal⟩⟩))
          (by simpa using prunes.source.lt_of_find? goal)
      rw [← Option.bind_eq_some_iff, ← Option.bind_eq_some_iff, goes]
  · rintro id ⟨position, here, live⟩ -
    have reached := isReachable_iff.mp live
    have found := getElem?_actions here
    have there := prunes.thins.at_rank here (prunes.live position id here reached)
    obtain ⟨test, same⟩ := prunes.action id (mem_of_getElem? there)
    rw [prunes.target.dispatch_eq there, prunes.source.dispatch_eq here, same,
      canThrow_keepArgs]
    split
    next throws =>
      rw [prunes.caughtAt_rank reached found throws]
      refine map_congr_left fun t listed => ?_
      obtain ⟨member, covered⟩ := mem_filter.mp listed
      refine Prod.ext rfl (prunes.landing_find? fun target goal => ?_)
      exact reached.edge (.inr (prunes.source.mem_exSuccsOf.mpr
        ⟨_, found, throws, t, member, covered, goal⟩))
        (by simpa using prunes.source.lt_of_find? goal)
    · rfl

end

end Prunes

end Method

end DexLift.Ir

/-! ## Joins when unreachable statements are taken out -/

namespace DexLift.Ir.Method

open List

variable {m n : Method} {keep : StmtId → Bool} {position : Nat} {l : Label} {a : Action}

/-- A position counts when it can be reached. -/
def IsLive (m : Method) (position : Nat) : Prop := (Flow.ofMethod m).isReachable position = true

theorem lt_of_reaches (reached : (Flow.ofMethod m).Reaches position) :
    position < m.actions.length := by
  cases reached with
  | start inside | edge _ _ inside => simpa using inside

namespace Prunes

section

variable (prunes : m.Prunes n keep) (reached : (Flow.ofMethod m).Reaches position)
  (found : m.actions[position]? = some a) (plain : a.label? = none)

include prunes reached found plain

theorem between {header : Nat}
    (none : ∀ i other, header < i → i < position → m.actions[i]? ≠ some (.label other))
    (low : header ≤ other) (high : other < position) : (Flow.ofMethod m).Reaches other := by
  refine (prunes.source.reaches_between (le_of_lt (lt_of_le_of_lt low high)) reached
    (fun i l low high label => ?_) other low (le_of_lt high)).1
  rcases Nat.eq_or_lt_of_le high with rfl | high
  · rw [Option.some.inj (found.symm.trans label)] at plain
    cases plain
  · exact absurd label (none i l low high)

theorem lastLabel_rank : n.lastLabel (rank keep m.order.toList position) = m.lastLabel position :=
  prunes.thins.lastLabel_rank (le_of_lt (lt_of_get found)) fun header id less here _ none =>
    prunes.live header id here (prunes.between reached found plain none le_rfl less)

end

theorem opens_of_opens (prunes : m.Prunes n keep) (opens : n.opens l = true) : m.opens l = true := by
  rw [opens_iff] at opens ⊢
  rcases opens with ⟨b, member, named⟩ | ⟨t, member, rfl⟩ | listed
  · obtain ⟨index, found⟩ := mem_iff_getElem?.mp member
    obtain ⟨position, id, test, here, -, -, rfl⟩ := prunes.exists_position found
    refine .inl ⟨_, mem_of_getElem? (getElem?_actions here), named.imp (by simp) ?_⟩
    exact fun inside => ((m.action id).phiArgs_keepArgs test).map PhiArg.pred |>.mem inside
  · obtain ⟨takes, traps, -⟩ := prunes.traps
    rw [traps] at member
    exact .inr (.inl ⟨t, (mem_filter.mp member).1, rfl⟩)
  · obtain ⟨named, index, target, args, found, same⟩ := mem_phiLabels.mp listed
    obtain ⟨position, id, test, here, kept, rfl, action⟩ := prunes.exists_position found
    have found' := getElem?_actions here
    cases single : m.action id with
    | phi target' args' =>
      rw [single] at found'
      have reached := prunes.dead position id here (by rw [single]; rfl) kept
      rw [prunes.lastLabel_rank reached found' rfl] at same
      exact .inr (.inr (mem_phiLabels.mpr ⟨named, position, target', args', found', same⟩))
    | _ =>
      rw [single] at action
      cases action

section

variable (prunes : m.Prunes n keep) (reached : (Flow.ofMethod m).Reaches position)

include prunes reached

theorem inBlock_rank (inside : m.InBlock l position) (opens : n.opens l = true) :
    n.InBlock l (rank keep m.order.toList position) := by
  have lt := lt_of_reaches reached
  obtain ⟨start, place, le, runs⟩ := inside.runs
  have between : ∀ i, start ≤ i → i ≤ position → (Flow.ofMethod m).Reaches i :=
    fun i low high => inside.reaches prunes.source reached lt place low high
  have label := prunes.source.find?_eq_some.mp place
  have reachedStart := between start le_rfl le
  obtain ⟨startTest, label'⟩ := prunes.action_rank reachedStart label
  have opensHere := prunes.opens_of_opens opens
  -- From the label on, both bodies stand in the same block.
  have standing : ∀ count, start + count ≤ position →
      n.standing (rank keep m.order.toList (start + count + 1)) =
        m.standing (start + count + 1) := by
    intro count
    induction count with
    | zero =>
      intro _
      rw [Nat.add_zero, prunes.rank_succ reachedStart label, standing_succ label',
        standing_succ label]
      simp [Action.keepArgs, Standing.pass, opens, opensHere]
    | succ count ih =>
      intro bound
      have before := ih (by omega)
      have here := between (start + count + 1) (by omega) (by omega)
      obtain ⟨b, found⟩ : ∃ b, m.actions[start + count + 1]? = some b :=
        ⟨_, getElem?_eq_getElem (lt_of_reaches here)⟩
      obtain ⟨test, found'⟩ := prunes.action_rank here found
      rw [← Nat.add_assoc, prunes.rank_succ here found, standing_succ found', standing_succ found,
        before]
      cases isLabel : b.label? with
      | none =>
        rw [pass_of_plain _ (by simpa using isLabel), pass_of_plain _ isLabel,
          Action.endsBlock_keepArgs]
      | some other =>
        rw [Action.label?_eq_some] at isLabel
        subst isLabel
        have closed := inside.closed prunes.source lt place (by omega) bound found
        have closed' : n.opens other = false := by
          rw [← Bool.not_eq_true]
          intro again
          rw [prunes.opens_of_opens again] at closed
          cases closed
        simp [Action.keepArgs, Standing.pass, closed, closed']
  obtain ⟨count, rfl⟩ := Nat.exists_eq_add_of_le le
  obtain ⟨c, found⟩ : ∃ c, m.actions[start + count]? = some c := ⟨_, getElem?_eq_getElem lt⟩
  have step := prunes.rank_succ reached found
  refine ⟨?_, rank keep m.order.toList start, prunes.find?_of_reached place reachedStart,
    rank_mono le, ?_⟩
  · rw [blockAt_eq_standing, ← step, standing count le_rfl, ← inside.block]
    rfl
  · intro i low high
    obtain ⟨test, last⟩ := prunes.action_rank reached found
    have bound := lt_of_get last
    obtain ⟨b, there⟩ : ∃ b, n.actions[i]? = some b :=
      ⟨_, getElem?_eq_getElem (Nat.lt_trans high bound)⟩
    obtain ⟨i', id, test', here, kept, rfl, rfl⟩ := prunes.exists_position there
    have less := (Ir.rank_lt_iff here kept).mp high
    have notBefore : ¬ i' < start := fun early =>
      absurd ((Ir.rank_lt_iff here kept).mpr early) (Nat.not_lt.mpr low)
    obtain ⟨d, found', falls⟩ := runs i' (by omega) less
    rw [getElem?_actions here] at found'
    rw [← Option.some.inj found'] at falls
    exact ⟨_, there, by simpa using falls⟩

theorem mem_edgesOf_iff {header : Nat} (label : m.actions[header]? = some (.label l))
    (live : (Flow.ofMethod m).Reaches header) {exceptional : Bool} :
    rank keep m.order.toList header ∈ n.edgesOf exceptional (rank keep m.order.toList position) ↔
      header ∈ m.edgesOf exceptional position := by
  obtain ⟨b, found⟩ : ∃ b, m.actions[position]? = some b :=
    ⟨_, getElem?_eq_getElem (lt_of_reaches reached)⟩
  obtain ⟨test, found'⟩ := prunes.action_rank reached found
  obtain ⟨test', label'⟩ := prunes.action_rank live label
  have step := prunes.rank_succ reached found
  rw [prunes.target.mem_edgesOf (l := l) label', prunes.source.mem_edgesOf label]
  refine or_congr ?_ (and_congr_right fun _ => ?_)
  · unfold Transfers
    rw [found, found']
    simp only [Option.some.injEq, exists_eq_left', Action.canThrow_keepArgs,
      Action.targets_keepArgs]
    cases exceptional with
    | false => rfl
    | true =>
      refine and_congr_right fun throws => ?_
      have same := prunes.caughtAt_rank reached found throws
      have listed : ∀ t, (t ∈ n.traps ∧ n.covered t (rank keep m.order.toList position) = true) ↔
          (t ∈ m.traps ∧ m.covered t position = true) := by
        intro t
        have member := Iff.of_eq (congrArg (t ∈ ·) same)
        rwa [caughtAt, caughtAt, mem_filter, mem_filter] at member
      refine exists_congr fun t => ?_
      rw [← and_assoc, ← and_assoc, listed]
  · constructor
    · rintro ⟨next, c, there, falls⟩
      obtain rfl := Option.some.inj (found'.symm.trans there)
      rw [Action.fallsThrough_keepArgs] at falls
      have runs : m.RunsOn position := ⟨b, found, falls⟩
      have less : position < header := (prunes.rank_lt_iff reached found).mp (by omega)
      have bound := lt_of_reaches live
      have next' := prunes.source.reaches_next reached runs (by omega)
      obtain ⟨d, found''⟩ : ∃ d, m.actions[position + 1]? = some d :=
        ⟨_, getElem?_eq_getElem (lt_of_reaches next')⟩
      exact ⟨prunes.rank_inj next' found'' live label (step.trans next), runs⟩
    · rintro ⟨rfl, c, there, falls⟩
      obtain rfl := Option.some.inj (found.symm.trans there)
      exact ⟨step.symm, _, found', by simpa using falls⟩

theorem exists_header (found : m.actions[position]? = some a) (plain : a.label? = none)
    {header' : Nat} (block : n.headerOf (rank keep m.order.toList position) = some header') :
    ∃ header, m.headerOf position = some header ∧ (Flow.ofMethod m).Reaches header ∧
      rank keep m.order.toList header = header' := by
  obtain ⟨test, there⟩ := prunes.action_rank reached found
  obtain ⟨header, block, same⟩ := prunes.thins.exists_header found plain there (by simpa using plain)
    (fun header none _ i id low high here =>
      prunes.live i id here (prunes.between reached found plain none low high)) block
  obtain ⟨less, -, straight⟩ := (prunes.source.headerOf_eq_some found plain).mp block
  refine ⟨header, block, prunes.between reached found plain (fun i l low high label => ?_) le_rfl less,
    same⟩
  cases (straight i _ low high label).1

end

theorem joinsFit (prunes : m.Prunes n keep) (fit : m.JoinsFit fun _ => True)
    (kept : ∀ position target args args' header, (Flow.ofMethod m).Reaches position →
      m.actions[position]? = some (.phi target args) → m.headerOf position = some header →
      n.actions[rank keep m.order.toList position]? = some (.phi target args') →
      ∃ test, args' = args.filter test ∧
        ∀ a ∈ args, test a = true ↔ m.EdgeFrom m.IsLive a.pred a.exceptional header) :
    n.JoinsFit n.IsLive := by
  intro index target args' header' found block
  obtain ⟨position, id, test, here, stays, rfl, action⟩ := prunes.exists_position found
  have found' := getElem?_actions here
  cases single : m.action id with
  | phi target' args =>
    rw [single] at found' action
    cases action
    have reached := prunes.dead position id here (by rw [single]; rfl) stays
    obtain ⟨header, block', live, rfl⟩ := prunes.exists_header reached found' rfl block
    obtain ⟨named, once, ways⟩ := fit position target args header found' block'
    obtain ⟨test', same, passes⟩ := kept position target args _ header reached found' block' found
    obtain ⟨joined, listed, label⟩ := prunes.source.phiLabel_of_header found' block'
    -- The operands left are for the edges out of reachable statements.
    have left : ∀ l exceptional, (l, exceptional) ∈ (args.filter test').map PhiArg.way ↔
        m.EdgeFrom m.IsLive l exceptional header := by
      intro l exceptional
      rw [mem_map]
      constructor
      · rintro ⟨a, member, way⟩
        obtain ⟨rfl, rfl⟩ := Prod.mk.inj way
        obtain ⟨member, passed⟩ := mem_filter.mp member
        exact (passes a member).mp passed
      · rintro edge
        have all : (l, exceptional) ∈ args.map PhiArg.way := (ways l exceptional).mpr
          (edge.imp fun _ ⟨_, rest⟩ => ⟨trivial, rest⟩)
        obtain ⟨a, member, way⟩ := mem_map.mp all
        obtain ⟨rfl, rfl⟩ := Prod.mk.inj way
        exact ⟨a, mem_filter.mpr ⟨member, (passes a member).mpr edge⟩, rfl⟩
    have opens : ∀ {l exceptional}, m.EdgeFrom m.IsLive l exceptional header →
        n.opens l = true := by
      intro l exceptional edge
      obtain ⟨a, member, way⟩ := mem_map.mp ((left l exceptional).mpr edge)
      refine opens_iff.mpr (.inl ⟨_, mem_of_getElem? found, .inr ?_⟩)
      rw [same]
      exact mem_map.mpr ⟨a, member, congrArg Prod.fst way⟩
    -- An edge of the shorter body comes from one of the longer body.
    have lifted : ∀ {source exceptional}, n.IsLive source →
        rank keep m.order.toList header ∈ n.edgesOf exceptional source →
        ∃ l, m.EdgeFrom m.IsLive l exceptional header ∧ n.InBlock l source := by
      intro source exceptional counts edge
      obtain ⟨place, reached', rfl⟩ := prunes.exists_reached (Flow.isReachable_iff.mp counts)
      have edge' := (prunes.mem_edgesOf_iff reached' label live).mp edge
      obtain ⟨l, inside⟩ := named place exceptional trivial edge'
      have from_ : m.EdgeFrom m.IsLive l exceptional header :=
        ⟨place, Flow.isReachable_iff.mpr reached', inside, edge'⟩
      exact ⟨l, from_, prunes.inBlock_rank reached' inside (opens from_)⟩
    rw [same]
    refine ⟨?_, ?_, ?_⟩
    · intro source exceptional counts edge
      obtain ⟨l, -, inside⟩ := lifted counts edge
      exact ⟨l, inside⟩
    · exact once.sublist (filter_sublist.map _)
    · intro l exceptional
      rw [left]
      constructor
      · intro edge
        have there := edge
        obtain ⟨source, counts, inside, edge'⟩ := there
        have reached' := Flow.isReachable_iff.mp counts
        exact ⟨_, Flow.isReachable_iff.mpr (prunes.reaches_rank reached'),
          prunes.inBlock_rank reached' inside (opens edge),
          (prunes.mem_edgesOf_iff reached' label live).mpr edge'⟩
      · rintro ⟨source, counts, inside, edge⟩
        obtain ⟨l', from_, inside'⟩ := lifted counts edge
        rwa [← inside.block, inside'.block]
  | _ =>
    rw [single] at action
    cases action

end Prunes

end DexLift.Ir.Method
