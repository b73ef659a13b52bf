import DexLift.Proofs.Ir.Exits
import DexLift.Proofs.Simplify.Labels
import DexLift.Proofs.Simplify.Pruning

/-!
# Dead code

Taking out what cannot be reached prunes the method. The label of a block that
cannot be reached is dead, and an operand that names a block whose label can be
reached names an edge out of a reachable statement, for which the search finds an
exit. So the operands that stay are those of the edges out of reachable
statements.
-/

namespace DexLift.Ir.Method

open List EdgeTable Ir.Action

variable {m : Method} {position : Nat} {l : Label} {id : StmtId} {a : Action}

/-! ## Operands whose way in is gone -/

/-- Methods that differ in operands of joins only. -/
structure Alike (m k : Method) : Prop where
  chain : k.chain = m.chain
  order : k.order = m.order
  placed : k.placed = m.placed
  blank : ∀ id, (k.action id).keepArgs (fun _ => false) = (m.action id).keepArgs fun _ => false

section Alike

variable {k : Method}

section

variable (alike : m.Alike k)

include alike

section

variable (id : StmtId)

theorem Alike.label? : (k.action id).label? = (m.action id).label? := by
  simpa using congrArg Action.label? (alike.blank id)

theorem Alike.branches : (k.action id).branches = (m.action id).branches := by
  simpa using congrArg Action.branches (alike.blank id)

theorem Alike.targets : (k.action id).targets = (m.action id).targets := by
  simpa using congrArg Action.targets (alike.blank id)

theorem Alike.fallsThrough : (k.action id).fallsThrough = (m.action id).fallsThrough := by
  simpa using congrArg Action.fallsThrough (alike.blank id)

theorem Alike.endsBlock : (k.action id).endsBlock = (m.action id).endsBlock := by
  simpa using congrArg Action.endsBlock (alike.blank id)

theorem Alike.onward : k.onward id = m.onward id := by
  simp only [Method.onward, alike.chain, alike.order]

end

theorem Alike.reaches (source target : Label) :
    k.reaches source target = m.reaches source target := by
  unfold Method.reaches
  rw [placedAt_congr alike.placed]
  cases m.placedAt? source with
  | none => rfl
  | some id =>
    dsimp only
    rw [bodyFrom, bodyFrom, alike.onward]
    generalize m.onward id = ids
    induction ids with
    | nil => rfl
    | cons id ids ih =>
      have same : (k.action id).isLabel = (m.action id).isLabel :=
        congrArg Option.isSome (alike.label? id)
      rw [map_cons, map_cons, takeWhile_cons, takeWhile_cons]
      dsimp only
      rw [same]
      split
      · rw [any_cons, any_cons, ih]
        dsimp only
        rw [alike.label?]
      · rfl

theorem Alike.exit? (t : EdgeTable) (pred succ : Label) (exceptional : Bool) :
    t.exit? k pred succ exceptional = t.exit? m pred succ exceptional := by
  have search : ∀ (ids : List StmtId) (last : StmtId) (ended : Bool),
      findExit t k succ exceptional (ids.map fun id => (id, k.action id)) last ended =
        findExit t m succ exceptional (ids.map fun id => (id, m.action id)) last ended := by
    intro ids
    induction ids with
    | nil => exact fun _ _ => rfl
    | cons id ids ih =>
      intro last ended
      have throws : t.mayThrowTo k id succ = t.mayThrowTo m id succ := by
        rw [mayThrowTo, mayThrowTo, placedAt_congr alike.placed]
      have branches : k.branchesTo (k.action id) succ = m.branchesTo (m.action id) succ := by
        simp only [branchesTo, alike.branches, alike.targets, alike.reaches]
      rw [map_cons, map_cons, findExit, findExit, alike.label?, throws, branches,
        alike.fallsThrough, alike.endsBlock]
      simp only [ih]
  unfold EdgeTable.exit? bodyAfter
  rw [placedAt_congr alike.placed]
  cases m.placedAt? pred with
  | none => rfl
  | some id =>
    simp only [Option.map_some, Option.bind_eq_bind, Option.bind_some, bodyFrom, alike.onward,
      ← map_tail, search]

theorem Alike.setAction (id : StmtId) (test : PhiArg → Bool) :
    m.Alike (k.setAction id ((k.action id).keepArgs test)) := by
  refine ⟨alike.chain, alike.order, alike.placed, fun other => ?_⟩
  rw [action_setAction]
  split
  next same =>
    rw [← alike.blank, same.1]
    cases k.action id <;> simp [keepArgs]
  · exact alike.blank other

end

end Alike

/-- Whether an operand of a join below a header stays. -/
def survives (m : Method) (dead : List Label) (header : Label) (a : PhiArg) : Bool :=
  !dead.contains a.pred &&
    ((EdgeTable.ofMethod m).exit? m a.pred header a.exceptional).isSome

theorem Alike.pruneStep {k : Method} (alike : m.Alike k) (dead : List Label)
    (pair : StmtId × Label) (made : pair.1 < k.stmts.size) :
    m.Alike (pruneStep (ofMethod m) dead k pair) ∧
      (∃ stmts, stmts.size = k.stmts.size ∧
        pruneStep (ofMethod m) dead k pair = { k with stmts }) ∧
      ∀ other, (pruneStep (ofMethod m) dead k pair).action other =
        if other = pair.1 then (k.action other).keepArgs (m.survives dead pair.2)
        else k.action other := by
  unfold Method.pruneStep
  split
  next target args single =>
    have same : phi target (args.filter fun a => !dead.contains a.pred &&
        ((ofMethod m).exit? k a.pred pair.2 a.exceptional).isSome) =
          (k.action pair.1).keepArgs (m.survives dead pair.2) := by
      simp only [single, keepArgs, alike.exit?]
      rfl
    rw [same]
    refine ⟨alike.setAction pair.1 _, ⟨_, setAction_size k pair.1 _, rfl⟩, fun other => ?_⟩
    rw [action_setAction]
    by_cases here : other = pair.1
    · subst here
      rw [if_pos ⟨rfl, made⟩, if_pos rfl]
    · rw [if_neg (fun both => here both.1), if_neg here]
  next other =>
    refine ⟨alike, ⟨k.stmts, rfl, rfl⟩, fun id => ?_⟩
    split
    next same =>
      subst same
      cases single : k.action pair.1 with
      | phi target args => exact absurd single (other target args)
      | _ => rfl
    · rfl

theorem Alike.pruneAll {k : Method} (alike : m.Alike k) (dead : List Label)
    (pairs : List (StmtId × Label)) (distinct : (pairs.map Prod.fst).Nodup)
    (made : ∀ pair ∈ pairs, pair.1 < k.stmts.size) :
    ∃ stmts, stmts.size = k.stmts.size ∧
      pairs.foldl (Method.pruneStep (ofMethod m) dead) k = { k with stmts } ∧
      ∀ pair ∈ pairs, (pairs.foldl (Method.pruneStep (ofMethod m) dead) k).action pair.1 =
        (k.action pair.1).keepArgs (m.survives dead pair.2) := by
  suffices both : ∃ stmts, stmts.size = k.stmts.size ∧
      pairs.foldl (Method.pruneStep (ofMethod m) dead) k = { k with stmts } ∧
      (∀ id, id ∉ pairs.map Prod.fst →
        (pairs.foldl (Method.pruneStep (ofMethod m) dead) k).action id = k.action id) ∧
      ∀ pair ∈ pairs, (pairs.foldl (Method.pruneStep (ofMethod m) dead) k).action pair.1 =
        (k.action pair.1).keepArgs (m.survives dead pair.2) by
    obtain ⟨stmts, size, equal, -, each⟩ := both
    exact ⟨stmts, size, equal, each⟩
  induction pairs generalizing k with
  | nil => exact ⟨k.stmts, rfl, rfl, fun _ _ => rfl, by simp⟩
  | cons pair pairs ih =>
    rw [map_cons, nodup_cons] at distinct
    obtain ⟨alike', ⟨stmts, size, equal⟩, actions⟩ :=
      alike.pruneStep dead pair (made pair mem_cons_self)
    have size' : (Method.pruneStep (ofMethod m) dead k pair).stmts.size = k.stmts.size := by
      rwa [equal]
    obtain ⟨stmts', size'', equal', others, each⟩ := ih alike' distinct.2
      fun other member => size' ▸ made other (.tail _ member)
    refine ⟨stmts', size''.trans size', ?_, ?_, ?_⟩
    · rw [foldl_cons, equal', equal]
    · intro id outside
      rw [map_cons, mem_cons, not_or] at outside
      rw [foldl_cons, others id outside.2, actions, if_neg outside.1]
    · intro other member
      rw [foldl_cons]
      rcases mem_cons.mp member with rfl | later
      · rw [others _ distinct.1, actions, if_pos rfl]
      · have different : other.1 ≠ pair.1 := by
          intro same
          exact distinct.1 (same ▸ mem_map_of_mem later)
        rw [each other later, actions, if_neg different]

theorem Tidy.prunePhis_with (tidy : m.Tidy) (dead : List Label) :
    (∃ stmts, stmts.size = m.stmts.size ∧ m.prunePhis dead = { m with stmts }) ∧
      ∀ (position : Nat) (id : StmtId) (header : Label), m.order.toList[position]? = some id →
        m.blockLabels[position]? = some header →
        (m.prunePhis dead).action id = (m.action id).keepArgs (m.survives dead header) := by
  have firsts : (m.order.toList.zip m.blockLabels).map Prod.fst = m.order.toList :=
    map_fst_zip (le_of_eq tidy.length_blockLabels.symm)
  have alike : m.Alike m := ⟨rfl, rfl, rfl, fun _ => rfl⟩
  obtain ⟨stmts, size, equal, each⟩ := alike.pruneAll dead (m.order.toList.zip m.blockLabels)
    (by rw [firsts]; exact tidy.nodup) (by
      intro pair member
      have listed := mem_map_of_mem (f := Prod.fst) member
      rw [firsts] at listed
      exact tidy.made pair.1 listed)
  refine ⟨⟨stmts, size, equal⟩, fun position id header here block => ?_⟩
  refine each (id, header) (mem_of_getElem? (i := position) ?_)
  rw [zip, getElem?_zipWith, here, block]

/-! ## Statements and traps that go -/

/-- The statements that cannot be reached. -/
def deadStmts (m : Method) : List StmtId :=
  (m.order.toList.zipIdx.filter fun (_, position) =>
    !(Flow.ofMethod m).reachable.getD position false).map Prod.fst

/-- The traps that cover something that can be reached and have a handler that can. -/
def liveTraps (m : Method) : List Trap :=
  let live := (Flow.ofMethod m).reachable
  let isLive (position : Nat) : Bool := live.getD position false
  let covering := ((range (Flow.ofMethod m).size).filter isLive).flatMap (Flow.ofMethod m).coversOf
  (m.traps.zipIdx.filter fun (t, i) =>
    covering.contains i && (m.positionOf? t.handler).any isLive).map Prod.fst

/-- Whether a statement goes, when it cannot be reached. -/
def goes (m : Method) (id : StmtId) : Bool :=
  match m.action id with
  | .label l => !(m.liveTraps.flatMap fun t => [t.start, t.stop]).contains l
  | _ => true

def staysLive (m : Method) (id : StmtId) : Bool :=
  !(m.deadStmts.foldl (fun (flags : Array Bool) id => flags.setIfInBounds id (m.goes id))
    (Array.replicate m.stmts.size false)).getD id false

/-- The method without what cannot be reached; joins have all their operands. -/
def withoutDead (m : Method) : Method :=
  ({ m with traps := m.liveTraps } : Method).removeWhere fun id => !m.staysLive id

theorem removeDeadCode_eq (m : Method) : m.removeDeadCode =
    m.withoutDead.prunePhis (m.deadStmts.filterMap fun id => (m.action id).label?) := by
  unfold removeDeadCode withoutDead staysLive
  simp only [Bool.not_not]
  rfl

theorem Tidy.mem_deadStmts (tidy : m.Tidy) (here : m.order.toList[position]? = some id) :
    id ∈ m.deadStmts ↔ ¬ (Flow.ofMethod m).Reaches position := by
  rw [deadStmts, mem_map, ← Flow.isReachable_iff, Bool.not_eq_true]
  constructor
  · rintro ⟨⟨other, place⟩, listed, rfl⟩
    obtain ⟨member, dead⟩ := mem_filter.mp listed
    rw [tidy.order_unique here (mem_zipIdx_iff_getElem?.mp member)]
    simpa [Flow.isReachable] using dead
  · intro dead
    refine ⟨(id, position), mem_filter.mpr ⟨mem_zipIdx_iff_getElem?.mpr here, ?_⟩, rfl⟩
    simpa [Flow.isReachable] using dead

theorem getD_flags (ids : List StmtId) (flag : StmtId → Bool) (flags : Array Bool) (id : StmtId)
    (inside : id < flags.size) :
    (ids.foldl (fun (flags : Array Bool) id => flags.setIfInBounds id (flag id)) flags).getD id
      false = if id ∈ ids then flag id else flags.getD id false := by
  induction ids generalizing flags with
  | nil => simp
  | cons first ids ih =>
    rw [foldl_cons, ih _ (by simpa using inside)]
    by_cases later : id ∈ ids
    · simp [later]
    · by_cases same : first = id
      · subst same
        simp [inside]
      · simp [later, Ne.symm same, same, Array.getD_eq_getD_getElem?]

section

variable (tidy : m.Tidy)

include tidy

theorem Tidy.staysLive_iff (here : m.order.toList[position]? = some id) :
    m.staysLive id = true ↔ (Flow.ofMethod m).Reaches position ∨ m.goes id = false := by
  have known := tidy.made id (mem_of_getElem? here)
  rw [staysLive, getD_flags _ _ _ _ (by simpa using known)]
  by_cases dead : id ∈ m.deadStmts
  · have unreached := (tidy.mem_deadStmts here).mp dead
    simp [dead, unreached]
  · have reached := mt (tidy.mem_deadStmts here).mpr dead
    rw [not_not] at reached
    simp [dead, reached, known]

theorem Tidy.liveTraps_eq : m.liveTraps = m.traps.filter fun t =>
    (List.range (Flow.ofMethod m).size).any (fun position =>
      (Flow.ofMethod m).isReachable position && m.covered t position) &&
        (m.find? t.handler).any (Flow.ofMethod m).isReachable := by
  have same : ∀ t i, m.traps[i]? = some t →
      (((List.range (Flow.ofMethod m).size).filter fun position =>
        (Flow.ofMethod m).reachable.getD position false).flatMap
          (Flow.ofMethod m).coversOf).contains i =
      (List.range (Flow.ofMethod m).size).any fun position =>
        (Flow.ofMethod m).isReachable position && m.covered t position := by
    intro t i found
    rw [Bool.eq_iff_iff, contains_iff_mem, mem_flatMap, any_eq_true]
    refine exists_congr fun position => ?_
    rw [mem_filter, and_assoc]
    refine and_congr_right fun inside => ?_
    rw [Bool.and_eq_true]
    refine and_congr_right fun _ => ?_
    rw [mem_range, Flow.size_ofMethod] at inside
    rw [coversOf_ofMethod inside, mem_coversAt]
    unfold covered
    simp only [tidy.positionOf?_eq_find?]
    constructor
    · rintro ⟨t', start, stop, found', isStart, isStop, low, high⟩
      obtain rfl := Option.some.inj (found.symm.trans found')
      simp [isStart, isStop, low, high]
    · intro inside
      split at inside
      next start stop isStart isStop =>
        simp only [Bool.and_eq_true, decide_eq_true_eq] at inside
        exact ⟨t, start, stop, found, isStart, isStop, inside.1, inside.2⟩
      · cases inside
  have firsts : (m.traps.zipIdx.map Prod.fst) = m.traps := by simp
  unfold liveTraps
  dsimp only
  conv_rhs => rw [← firsts]
  rw [filter_map]
  refine congrArg (List.map Prod.fst) (filter_congr ?_)
  rintro ⟨t, i⟩ member
  rw [mem_zipIdx_iff_getElem?] at member
  dsimp only [Function.comp]
  rw [same t i member, tidy.positionOf?_eq_find?]
  rfl

theorem Tidy.withoutDead_with : m.withoutDead.Tidy ∧
    m.withoutDead.order.toList = m.order.toList.filter m.staysLive ∧
      (∀ id, m.withoutDead.action id = m.action id) ∧ m.withoutDead.traps = m.liveTraps := by
  have other : ({ m with traps := m.liveTraps } : Method).Tidy :=
    tidy.of_same_labels tidy.plain tidy.nodup tidy.made (fun _ _ => Iff.rfl) fun l => by
      cases l <;> rfl
  obtain ⟨placed, -, equal, -⟩ := removeWhere_with other fun id => !m.staysLive id
  refine ⟨other.removeWhere _, ?_, ?_, ?_⟩
  · rw [withoutDead, equal, Array.toList_filter]
    simp
  · intro id
    rw [withoutDead, equal]
    rfl
  · rw [withoutDead, equal]

section

variable (placed : ∀ t ∈ m.traps, (m.find? t.handler).isSome = true)

include placed

theorem Tidy.prunes_of_withoutDead
    {n : Method} (target : n.Tidy) (order : n.order = m.withoutDead.order)
    (traps : n.traps = m.withoutDead.traps)
    (action : ∀ id ∈ n.order.toList, ∃ test, n.action id = (m.action id).keepArgs test) :
    m.Prunes n m.staysLive := by
  obtain ⟨-, order', -, traps'⟩ := tidy.withoutDead_with
  refine ⟨tidy, target, by rw [order, order'], action, ⟨_, by rw [traps, traps', tidy.liveTraps_eq],
    ?_⟩, ?_, ?_, ?_⟩
  · intro position a reached found throws t member covered
    have inside := lt_of_reaches reached
    rw [Bool.and_eq_true, any_eq_true]
    refine ⟨⟨position, mem_range.mpr (by simpa using inside), ?_⟩, ?_⟩
    · rw [covered, Flow.isReachable_iff.mpr reached]
      rfl
    · obtain ⟨handler, goal⟩ := Option.isSome_iff_exists.mp (placed t member)
      rw [goal, Option.any_some, Flow.isReachable_iff]
      exact reached.edge (.inr (tidy.mem_exSuccsOf.mpr
        ⟨a, found, throws, t, member, covered, goal⟩)) (by simpa using tidy.lt_of_find? goal)
  · intro t member id inside label
    obtain ⟨position, here⟩ := mem_iff_getElem?.mp inside
    rw [traps, traps'] at member
    refine (tidy.staysLive_iff here).mpr (.inr ?_)
    unfold goes
    rcases label with label | label
    all_goals
      rw [label]
      dsimp only
      rw [Bool.not_eq_false', contains_iff_mem, mem_flatMap]
      exact ⟨t, member, by simp⟩
  · intro position id here reached
    exact (tidy.staysLive_iff here).mpr (.inl reached)
  · intro position id here plain stays
    rcases (tidy.staysLive_iff here).mp stays with reached | marks
    · exact reached
    · unfold goes at marks
      split at marks
      next label =>
        rw [label] at plain
        cases plain
      · cases marks

theorem Tidy.prunes_removeDeadCode : m.Prunes m.removeDeadCode m.staysLive := by
  obtain ⟨tidy', order, actions, -⟩ := tidy.withoutDead_with
  obtain ⟨⟨stmts, size, equal⟩, each⟩ :=
    tidy'.prunePhis_with (m.deadStmts.filterMap fun id => (m.action id).label?)
  rw [← removeDeadCode_eq] at equal each
  have narrows : ∀ id ∈ m.withoutDead.order.toList,
      ∃ test, m.removeDeadCode.action id = (m.action id).keepArgs test := by
    intro id member
    obtain ⟨position, here⟩ := mem_iff_getElem?.mp member
    obtain ⟨header, block⟩ : ∃ header, m.withoutDead.blockLabels[position]? = some header :=
      ⟨_, getElem?_eq_getElem (by
        rw [tidy'.length_blockLabels]
        exact (lt_of_get here))⟩
    rw [each position id header here block, actions]
    exact ⟨_, rfl⟩
  refine tidy.prunes_of_withoutDead placed ?_ (by rw [equal]) (by rw [equal]) ?_
  · refine tidy'.of_same_labels (by rw [equal]; exact tidy'.plain) (by rw [equal]; exact tidy'.nodup)
      ?_ ?_ ?_
    · intro id member
      rw [equal] at member ⊢
      exact size ▸ tidy'.made id member
    · intro id l
      have sameOrder : m.removeDeadCode.order = m.withoutDead.order := by rw [equal]
      rw [sameOrder]
      refine and_congr_right fun member => ?_
      obtain ⟨test, same⟩ := narrows id member
      rw [← label?_eq_some, ← label?_eq_some, same, actions, label?_keepArgs]
    · intro l
      rw [equal]
      cases l <;> rfl
  · intro id member
    refine narrows id ?_
    rwa [equal] at member

end

theorem Tidy.mem_deadLabels (found : m.find? l = some position) :
    l ∈ m.deadStmts.filterMap (fun id => (m.action id).label?) ↔
      ¬ (Flow.ofMethod m).Reaches position := by
  obtain ⟨id, here, label⟩ := exists_order (tidy.find?_eq_some.mp found)
  rw [← tidy.mem_deadStmts here, mem_filterMap]
  constructor
  · rintro ⟨other, listed, isLabel⟩
    have member : other ∈ m.order.toList := by
      obtain ⟨entry, inside, rfl⟩ := mem_map.mp listed
      exact mem_of_getElem? (mem_zipIdx_iff_getElem?.mp (mem_filter.mp inside).1)
    rwa [tidy.label_unique (mem_of_getElem? here) member label (label?_eq_some.mp isLabel)]
  · exact fun listed => ⟨id, listed, by rw [label]; rfl⟩

section

variable (placed : ∀ t ∈ m.traps, (m.find? t.handler).isSome = true)
  (fit : m.JoinsFit fun _ => True)

include placed fit

theorem Tidy.survives_iff {target : LocalId} {args : List PhiArg} {header : Nat}
    {joined : Label} (reached : (Flow.ofMethod m).Reaches position)
    (found : m.actions[position]? = some (.phi target args))
    (block : m.headerOf position = some header) (label : m.actions[header]? = some (.label joined))
    {a : PhiArg} (member : a ∈ args) :
    m.withoutDead.survives (m.deadStmts.filterMap fun id => (m.action id).label?) joined a = true ↔
      m.EdgeFrom m.IsLive a.pred a.exceptional header := by
  obtain ⟨tidy', -, actions, -⟩ := tidy.withoutDead_with
  have prunes : m.Prunes m.withoutDead m.staysLive :=
    tidy.prunes_of_withoutDead placed tidy' rfl rfl fun id _ =>
      ⟨fun _ => true, by rw [actions]; cases m.action id <;> simp [keepArgs]⟩
  rw [survives, Bool.and_eq_true, Bool.not_eq_true', ← Bool.not_eq_true, contains_iff_mem]
  constructor
  · rintro ⟨notDead, -⟩
    have named : (a.pred, a.exceptional) ∈ args.map PhiArg.way := mem_map_of_mem member
    obtain ⟨source, -, inside, edge⟩ := ((fit position target args header found block).ways
      a.pred a.exceptional).mp named
    obtain ⟨start, place, -⟩ := inside.runs
    have lt : source < m.actions.length := by
      rcases (tidy.mem_edgesOf label).mp edge with ⟨b, at_, -⟩ | ⟨-, -, b, at_, -⟩
      all_goals exact lt_of_get at_
    rw [tidy.mem_deadLabels place, not_not] at notDead
    have live := inside.reached tidy lt place notDead
    exact ⟨source, Flow.isReachable_iff.mpr live, inside, edge⟩
  · rintro ⟨source, live, inside, edge⟩
    have live := Flow.isReachable_iff.mp live
    obtain ⟨start, place, le, -⟩ := inside.runs
    have lt := lt_of_reaches live
    refine ⟨?_, ?_⟩
    · rw [tidy.mem_deadLabels place, not_not]
      exact inside.reaches tidy live lt place le_rfl le
    · have liveHeader : (Flow.ofMethod m).Reaches header := by
        refine live.edge ?_ (by simpa using (lt_of_get label))
        unfold edgesOf at edge
        split at edge
        · exact .inr edge
        · exact .inl edge
      obtain ⟨test, label'⟩ := prunes.action_rank liveHeader label
      obtain ⟨id, here, single⟩ := exists_order found
      have there := prunes.thins.at_rank here (prunes.live position id here reached)
      have opens : m.withoutDead.opens a.pred = true := by
        refine opens_iff.mpr (.inl ⟨_, mem_of_getElem? (getElem?_actions there), .inr ?_⟩)
        rw [actions, single]
        exact mem_map_of_mem member
      exact tidy'.exit?_of_edge (prunes.inBlock_rank live inside opens) label'
        ((prunes.mem_edgesOf_iff live label liveHeader).mpr edge)

theorem Tidy.joinsFit_removeDeadCode : m.removeDeadCode.JoinsFit m.removeDeadCode.IsLive := by
  refine (tidy.prunes_removeDeadCode placed).joinsFit fit ?_
  intro position target args args' header reached found block there
  obtain ⟨tidy', order, actions, -⟩ := tidy.withoutDead_with
  obtain ⟨⟨stmts, size, equal⟩, each⟩ :=
    tidy'.prunePhis_with (m.deadStmts.filterMap fun id => (m.action id).label?)
  rw [← removeDeadCode_eq] at equal each
  have prunes : m.Prunes m.withoutDead m.staysLive :=
    tidy.prunes_of_withoutDead placed tidy' rfl rfl fun id _ =>
      ⟨fun _ => true, by rw [actions]; cases m.action id <;> simp [keepArgs]⟩
  obtain ⟨less, ⟨joined, label⟩, straight⟩ := (tidy.headerOf_eq_some found rfl).mp block
  obtain ⟨id, here, single⟩ := exists_order found
  have here' := prunes.thins.at_rank here (prunes.live position id here reached)
  have found' := getElem?_actions here'
  rw [actions, single] at found'
  -- The block label of the join is the same in the shorter body.
  have closed : ∀ i l, header < i → i ≤ position → m.actions[i]? = some (.label l) →
      m.opens l = false := by
    intro i l low high isLabel
    rcases Nat.eq_or_lt_of_le high with rfl | high
    · rw [found] at isLabel
      cases isLabel
    · cases (straight i _ low high isLabel).1
  have liveHeader := (tidy.reaches_between (le_of_lt less) reached closed header le_rfl
    (le_of_lt less)).1
  obtain ⟨test, label'⟩ := prunes.action_rank liveHeader label
  have header' : m.withoutDead.headerOf (rank m.staysLive m.order.toList position) =
      some (rank m.staysLive m.order.toList header) := by
    refine (tidy'.headerOf_eq_some found' rfl).mpr
      ⟨(prunes.rank_lt_iff liveHeader label).mpr less, ⟨joined, label'⟩, ?_⟩
    intro i b low high at_
    obtain ⟨i', other, test', there, kept, rfl, rfl⟩ := prunes.exists_position at_
    have plain := straight i' _ ((prunes.rank_lt_iff liveHeader label).mp low)
      ((rank_lt_iff there kept).mp high) (getElem?_actions there)
    exact ⟨by simpa using plain.1, by simpa using plain.2⟩
  obtain ⟨l, labels, place⟩ := Option.bind_eq_some_iff.mp header'
  have same : l = joined := by
    have at_ := tidy'.find?_eq_some.mp place
    rw [label'] at at_
    simpa [keepArgs, eq_comm] using at_
  subst same
  refine ⟨_, ?_, fun a member =>
    tidy.survives_iff placed fit reached found block label member⟩
  have action := each _ id l here' labels
  have sameOrder : m.removeDeadCode.order = m.withoutDead.order := by rw [equal]
  rw [actions, single] at action
  have at_ : m.removeDeadCode.order.toList[rank m.staysLive m.order.toList position]? = some id := by
    rwa [sameOrder]
  rw [getElem?_actions at_, action] at there
  exact (phi.inj (Option.some.inj there)).2.symm

end

end

end DexLift.Ir.Method
