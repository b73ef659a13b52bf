import DexLift.Proofs.Resolve.Marking
import DexLift.Proofs.Simplify.Reachable

/-!
# What the new table of traps takes

A statement that can be reached is taken by the same entries as before when the
table is built anew, so the same statements can be reached, and those that
cannot be reached go. Each range covers something that can be reached and throw,
nothing that cannot throw but labels and empty statements, and nothing that
another range covers.
-/

namespace DexLift.Ir

open List Ir.Flow

/-- The entry of a trap without its range. -/
def Trap.toCatch (t : Trap) : Catch := { type := t.type, handler := t.handler }

/-! ## Lists without repetitions -/

section AddNew

variable {α : Type} [BEq α] [LawfulBEq α]

theorem nodup_foldl_addNew {added xs : List α} (nodup : xs.Nodup) :
    (added.foldl addNew xs).Nodup := by
  induction added generalizing xs with
  | nil => exact nodup
  | cons x added ih =>
    refine ih ?_
    unfold addNew
    split
    · exact nodup
    next new =>
      rw [nodup_append]
      refine ⟨nodup, pairwise_singleton .., ?_⟩
      rintro y old z single rfl
      rw [mem_singleton.mp single] at old
      exact new (contains_iff_mem.mpr old)

theorem foldl_addNew_of_nodup {added xs : List α} (nodup : (xs ++ added).Nodup) :
    added.foldl addNew xs = xs ++ added := by
  induction added generalizing xs with
  | nil => exact (append_nil xs).symm
  | cons x added ih =>
    have new : x ∉ xs := fun old =>
      (nodup_append.mp nodup).2.2 x old x mem_cons_self rfl
    have absent : ¬ (xs.contains x = true) := mt contains_iff_mem.mp new
    rw [foldl_cons, addNew, if_neg absent, ih (by simpa using nodup)]
    simp

end AddNew

namespace Method

variable {m k n : Method} {id other : StmtId} {position : Nat} {t : Trap} {marks : List Mark}
  {traps : List Trap}

/-! ## What takes the exceptions of a statement -/

/-- The entries that take the exceptions of a statement, each once, in the order of the table. -/
def catches (m : Method) (id : StmtId) : List Catch :=
  match m.order.toList.idxOf? id with
  | none => []
  | some position => m.catchesAt (Flow.ofMethod m) position

/-- The range of an entry of the table contains a statement. -/
def Covers (m : Method) (t : Trap) (id : StmtId) : Prop :=
  ∃ position i, m.order.toList[position]? = some id ∧
    i ∈ (Flow.ofMethod m).coversOf position ∧ m.traps[i]? = some t

section

variable (tidy : m.Tidy)

include tidy

theorem Tidy.catchesAt_eq (here : m.order.toList[position]? = some id) :
    m.catchesAt (ofMethod m) position = if (m.action id).canThrow = true then
      ((m.caughtAt position).map Trap.toCatch).foldl addNew [] else [] := by
  have found := getElem?_actions here
  have inside := lt_of_get found
  unfold catchesAt
  rw [handlers, action_ofMethod, found, Option.getD_some]
  split
  · rw [coversOf_ofMethod (by simpa using inside), ← tidy.filterMap_coversAt]
    rfl
  · rfl

theorem Tidy.catches_eq (here : m.order.toList[position]? = some id) :
    m.catches id = if (m.action id).canThrow = true then
      ((m.caughtAt position).map Trap.toCatch).foldl addNew [] else [] := by
  unfold catches
  rw [tidy.idxOf?_eq here]
  exact tidy.catchesAt_eq here

theorem Tidy.catches_of_quiet (quiet : (m.action id).canThrow = false) : m.catches id = [] := by
  cases place : m.order.toList.idxOf? id with
  | none => simp [catches, place]
  | some position =>
    obtain ⟨inside, same, -⟩ := idxOf?_eq_some_iff.mp place
    rw [tidy.catches_eq (List.getElem?_eq_some_iff.mpr ⟨inside, same⟩), if_neg (by simp [quiet])]

theorem Tidy.mem_dispatch {type : Text} {next : Option StmtId} :
    (type, next) ∈ m.dispatch id ↔
      ∃ c ∈ m.catches id, c.type = type ∧ (m.find? c.handler).bind m.landing = next := by
  cases place : m.order.toList.idxOf? id with
  | none => simp [catches, dispatch, place]
  | some position =>
    obtain ⟨inside, same, -⟩ := idxOf?_eq_some_iff.mp place
    have here := getElem?_eq_some_iff.mpr ⟨inside, same⟩
    rw [tidy.dispatch_eq here, tidy.catches_eq here]
    split
    · simp only [mem_foldl_addNew, not_mem_nil, false_or, mem_map,
        exists_exists_and_eq_and, Prod.mk.injEq, Trap.toCatch]
    · simp

theorem Tidy.covers_iff (here : m.order.toList[position]? = some id) :
    m.Covers t id ↔ t ∈ m.traps ∧ m.covered t position = true := by
  have inside := lt_of_get here
  have covers := coversOf_ofMethod (m := m) (by simpa using inside)
  have listed : t ∈ m.caughtAt position ↔
      ∃ i ∈ m.coversAt position, m.traps[i]? = some t := by
    have read := tidy.filterMap_coversAt position (fun t : Trap => t)
    rw [map_id'] at read
    rw [← read, mem_filterMap]
    simp
  have filtered : t ∈ m.caughtAt position ↔ t ∈ m.traps ∧ m.covered t position = true :=
    mem_filter
  rw [← filtered, listed]
  constructor
  · rintro ⟨place, i, there, member, found⟩
    rw [tidy.order_unique here there] at covers ⊢
    exact ⟨i, covers ▸ member, found⟩
  · rintro ⟨i, member, found⟩
    exact ⟨position, i, here, covers ▸ member, found⟩

theorem Tidy.covered_iff_before {opening closing : StmtId}
    (first : opening ∈ m.order.toList) (opens : m.action opening = .label t.start)
    (last : closing ∈ m.order.toList) (closes : m.action closing = .label t.stop)
    (here : m.order.toList[position]? = some id) :
    m.covered t position = true ↔ m.Before opening id ∧ m.Before id closing := by
  obtain ⟨i, hereFirst⟩ := mem_iff_getElem?.mp first
  obtain ⟨j, hereLast⟩ := mem_iff_getElem?.mp last
  have start : m.find? t.start = some i := by
    rw [tidy.find?_eq_some, getElem?_actions hereFirst, opens]
  have stop : m.find? t.stop = some j := by
    rw [tidy.find?_eq_some, getElem?_actions hereLast, closes]
  rw [tidy.before_iff hereFirst here, tidy.before_iff here hereLast]
  simp [covered, start, stop]

end

end Method

namespace Mark

variable {m k : Method} {id : StmtId} {position : Nat} {t : Trap} {x : Mark}

theorem Encloses.mem_order (encloses : x.Encloses m k)
    (here : m.order.toList[position]? = some id) :
    x.opening ∈ k.order.toList ∧ x.closing ∈ k.order.toList := by
  constructor
  · rcases Nat.lt_or_ge position x.run.first with less | le
    · exact ((encloses.first _ _ here).2 less).subset (by simp)
    · exact ((encloses.first _ _ here).1 le).subset (by simp)
  · rcases Nat.lt_or_ge x.run.last position with less | le
    · exact ((encloses.last _ _ here).2 less).subset (by simp)
    · exact ((encloses.last _ _ here).1 le).subset (by simp)

theorem Encloses.covered_iff (tidy : k.Tidy) (encloses : x.Encloses m k)
    (member : t ∈ x.traps) (here : m.order.toList[position]? = some id) {place : Nat}
    (there : k.order.toList[place]? = some id) :
    k.covered t place = true ↔ x.run.first ≤ position ∧ position ≤ x.run.last := by
  obtain ⟨c, -, rfl⟩ := mem_map.mp member
  obtain ⟨first, last⟩ := encloses.mem_order here
  rw [tidy.covered_iff_before first encloses.opens last encloses.closes there]
  constructor
  · rintro ⟨behind, inFront⟩
    constructor
    · by_contra less
      exact behind.asymm tidy ((encloses.first _ _ here).2 (Nat.lt_of_not_le less))
    · by_contra less
      exact inFront.asymm tidy ((encloses.last _ _ here).2 (Nat.lt_of_not_le less))
  · rintro ⟨low, high⟩
    exact ⟨(encloses.first _ _ here).1 low, (encloses.last _ _ here).1 high⟩

end Mark

namespace Method

variable {m k n : Method} {id other : StmtId} {position : Nat} {t : Trap} {marks : List Mark}
  {traps : List Trap}

/-! ## The three steps -/

/-- The entries that take what a position throws, when it can be reached. -/
def liveCatches (m : Method) (position : Nat) : List Catch :=
  if (Flow.ofMethod m).isReachable position then m.catchesAt (Flow.ofMethod m) position else []

def cuts (m : Method) : List CatchRun :=
  catchRuns (Flow.ofMethod m)
    ((range' 0 (Flow.ofMethod m).size).map fun position => (position, m.liveCatches position))
    none

/-- The method with labels around its runs, and the table for them. -/
def markRuns (m : Method) : Method × List Trap := m.cuts.foldl (addRun (Flow.ofMethod m)) (m, [])

/-- The method with its new table. -/
def retrapped (m : Method) : Method := { m.markRuns.1 with traps := m.markRuns.2 }

/-- The statements, labels aside, that cannot be reached. -/
def unreached (m : Method) : List StmtId :=
  (range (Flow.ofMethod m).size).filterMap fun position =>
    match (Flow.ofMethod m).order[position]? with
    | some (id, s) =>
      if !(Flow.ofMethod m).reachable.getD position false && !s.action.isLabel then some id else none
    | none => none

/-- What stays when these are taken out: they are flagged first. -/
def staysReached (m : Method) (id : StmtId) : Bool :=
  !(m.unreached.foldl (fun (gone : Array Bool) id => gone.setIfInBounds id true)
    (Array.replicate m.stmts.size false)).getD id false

/-- The method without statements, labels aside, that cannot be reached. -/
def withoutUnreached (m : Method) : Method := m.removeWhere fun id => !m.staysReached id

theorem trimTraps_of_ne_nil (some : m.traps ≠ []) :
    m.trimTraps = (m.retrapped.removeWhere fun id =>
      ((range (ofMethod m.retrapped).size).foldl (fun (gone : Array Bool) position =>
        match (ofMethod m.retrapped).order[position]? with
        | .some (id, s) =>
          if !(ofMethod m.retrapped).reachable.getD position false && !s.action.isLabel then
            gone.setIfInBounds id true
          else gone
        | none => gone) (Array.replicate m.retrapped.stmts.size false)).getD id
          false).removeUnusedLabels := by
  unfold trimTraps
  rw [if_neg (by simpa using some)]
  simp only [retrapped, markRuns, cuts, liveCatches, ← range_eq_range']
  rfl

theorem trimTraps_eq (some : m.traps ≠ []) :
    m.trimTraps = m.retrapped.withoutUnreached.removeUnusedLabels := by
  rw [trimTraps_of_ne_nil some, withoutUnreached]
  unfold staysReached unreached
  simp only [Bool.not_not, foldl_filterMap]
  refine congrArg (fun test => (m.retrapped.removeWhere test).removeUnusedLabels)
    (funext fun id => congrArg (fun gone : Array Bool => gone.getD id false) ?_)
  refine congrArg (fun step => foldl step _ _) (funext fun gone => funext fun position => ?_)
  cases (ofMethod m.retrapped).order[position]? with
  | none => rfl
  | some entry =>
    dsimp only
    split <;> rfl

/-! ## The new table -/

theorem liveCatches_of_filler (filler : ((ofMethod m).action position).isFiller = true) :
    m.liveCatches position = [] := by
  have quiet : ((ofMethod m).action position).canThrow = false := by
    cases action : (ofMethod m).action position with
    | label | nop => rfl
    | _ =>
      rw [action] at filler
      cases filler
  have nothing : m.catchesAt (ofMethod m) position = [] := by
    unfold catchesAt
    rw [handlers, if_neg (by simp [quiet])]
    rfl
  rw [liveCatches, nothing, ite_self]

theorem splitsInto_cuts (m : Method) :
    SplitsInto (ofMethod m) m.liveCatches 0 (ofMethod m).size m.cuts := by
  have splits := (@splitsInto_catchRuns (ofMethod m) m.liveCatches
    (fun _ => liveCatches_of_filler) (ofMethod m).size 0).1
  rwa [Nat.zero_add] at splits

theorem Tidy.exists_marked (tidy : m.Tidy) : ∃ marks, marks.map Mark.run = m.cuts ∧
    m.Marked m.markRuns.1 marks m.markRuns.2 := by
  have splits := m.splitsInto_cuts
  have empty : m.Marked m [] [] := ⟨tidy.widens, rfl, by simp, .nil⟩
  exact empty.addRuns tidy (fun run member => (splits.each run member).le)
    (fun run member => by simpa using splits.high run member) splits.apart

theorem Tidy.withTraps (tidy : m.Tidy) (traps : List Trap) : ({ m with traps } : Method).Tidy :=
  tidy.of_same_labels tidy.plain tidy.nodup tidy.made (fun _ _ => Iff.rfl) fun l => by
    cases l <;> rfl

def RefersToMade (m : Method) : Prop :=
  ∀ index, .number index ∈ m.mentioned → index < m.placed.size

theorem Widens.mem_mentioned (widens : m.Widens k) {l : Label} (mentioned : l ∈ k.mentioned) :
    l ∈ m.mentioned := by
  rcases mem_append.mp mentioned with inBody | inTraps
  · obtain ⟨a, listed, refers⟩ := mem_flatMap.mp inBody
    obtain ⟨id, member, rfl⟩ := mem_map.mp listed
    by_cases old : id < m.stmts.size
    · have member' : id ∈ m.order.toList := by
        rw [← widens.order]
        exact mem_filter.mpr ⟨member, by simpa using old⟩
      rw [widens.action id old] at refers
      exact mem_append_left _ (mem_flatMap.mpr ⟨_, mem_map_of_mem member', refers⟩)
    · obtain ⟨index, -, label⟩ := widens.new id member (Nat.le_of_not_lt old)
      rw [label] at refers
      cases refers
  · rw [widens.traps] at inTraps
    exact mem_append_right _ inTraps

theorem Widens.relabels (tidy : m.Tidy) (made : m.RefersToMade) (widens : m.Widens k) :
    k.Relabels m (· < m.stmts.size) fun l => l where
  source := widens.tidy
  target := tidy
  order := widens.order.symm
  action := fun id member => by
    rw [Action.mapLabels_id, widens.action id (tidy.made id member)]
  traps := by
    rw [widens.traps]
    exact (map_id m.traps).symm
  labels := fun id member gone => by
    obtain ⟨index, -, label⟩ := widens.new id member (by simpa using gone)
    rw [label]
    rfl
  absent := fun _ _ missing => missing
  moved := fun l mentioned position found => by
    obtain ⟨id, here, label⟩ := exists_order (widens.tidy.find?_eq_some.mp found)
    refine ⟨position, id, found, le_rfl, here, ?_, fun i other low high => absurd high (by omega)⟩
    by_contra new
    obtain ⟨index, large, label'⟩ := widens.new id (mem_of_getElem? here) (by simpa using new)
    obtain rfl := Action.label.inj (label.symm.trans label')
    exact absurd (made index (widens.mem_mentioned mentioned)) (Nat.not_lt.mpr large)

theorem Marked.caughtAt_eq (marked : m.Marked k marks traps)
    (here : m.order.toList[position]? = some id) {place : Nat}
    (there : k.order.toList[place]? = some id) :
    (({ k with traps } : Method).caughtAt place).map Trap.toCatch =
      heldBy (marks.map Mark.run) position := by
  have block : ∀ x ∈ marks,
      (x.traps.filter (({ k with traps } : Method).covered · place)).map Trap.toCatch =
        if x.run.first ≤ position ∧ position ≤ x.run.last then x.run.catches else [] := by
    intro x member
    have covered : ∀ t ∈ x.traps, ({ k with traps } : Method).covered t place =
        decide (x.run.first ≤ position ∧ position ≤ x.run.last) := by
      intro t listed
      rw [Bool.eq_iff_iff, decide_eq_true_iff]
      exact (marked.each x member).covered_iff marked.widens.tidy listed here there
    rw [filter_congr covered]
    split
    next inside =>
      simp only [inside, and_self, decide_true, filter_true, Mark.traps, map_map]
      exact map_id x.run.catches
    next outside => simp [outside]
  rw [caughtAt, heldBy, flatMap_map]
  dsimp only
  rw [marked.table, filter_flatMap, map_flatMap]
  exact flatMap_congr block

/-! ## The flow under the new table -/

section Retrapped

section

variable (tidy : m.Tidy)

include tidy

theorem Tidy.retrapped : m.retrapped.Tidy :=
  let ⟨_, _, marked⟩ := tidy.exists_marked
  marked.widens.tidy.withTraps _

theorem Tidy.catches_retrapped (live : m.Live id) : m.retrapped.catches id = m.catches id := by
  obtain ⟨marks, runs, marked⟩ := tidy.exists_marked
  obtain ⟨position, here, reached⟩ := live
  have member := mem_of_getElem? here
  have same : m.retrapped.action id = m.action id :=
    marked.widens.action id (tidy.made id member)
  cases throws : (m.action id).canThrow with
  | false => rw [tidy.retrapped.catches_of_quiet (same ▸ throws), tidy.catches_of_quiet throws]
  | true =>
    have found := getElem?_actions here
    have plain : ((ofMethod m).action position).isFiller = false := by
      rw [action_ofMethod, found, Option.getD_some]
      cases action : m.action id with
      | label | nop =>
        rw [action] at throws
        cases throws
      | _ => rfl
    have inside : position < (ofMethod m).size := by
      simpa using (lt_of_get here)
    obtain ⟨place, there⟩ := mem_iff_getElem?.mp (marked.widens.within.subset member)
    have held := marked.caughtAt_eq here there
    rw [runs, m.splitsInto_cuts.heldBy_eq (Nat.zero_le _) inside plain, liveCatches,
      if_pos reached, tidy.catchesAt_eq here, if_pos throws] at held
    rw [tidy.retrapped.catches_eq there, tidy.catches_eq here, same, if_pos throws, if_pos throws]
    exact (congrArg (foldl addNew []) held).trans (foldl_addNew_of_nodup (nodup_foldl_addNew .nil))

theorem Tidy.follows_retrapped (made : m.RefersToMade)
    (member : id ∈ m.order.toList) (plain : (m.action id).isLabel = false) :
    m.retrapped.Follows id other ↔ m.Follows id other := by
  obtain ⟨marks, -, marked⟩ := tidy.exists_marked
  obtain ⟨place, there⟩ := mem_iff_getElem?.mp (marked.widens.within.subset member)
  have relabels := marked.widens.relabels tidy made
  have plain' : (m.markRuns.1.action id).isLabel = false := by
    rw [marked.widens.action id (tidy.made id member), plain]
  rw [relabels.follows_iff there plain']
  exact (tidy.retrapped.follows_iff there).trans (marked.widens.tidy.follows_iff there).symm

theorem Tidy.handler_retrapped (made : m.RefersToMade) (member : t ∈ m.traps) :
    (m.retrapped.find? t.handler).bind m.retrapped.landing =
      (m.find? t.handler).bind m.landing := by
  obtain ⟨marks, -, marked⟩ := tidy.exists_marked
  have relabels := marked.widens.relabels tidy made
  exact (relabels.landing_find? (mentioned_of_trap (marked.widens.traps ▸ member)
    (.inr (.inr rfl)))).symm

theorem Tidy.entry_retrapped (made : m.RefersToMade) : m.retrapped.landing 0 = m.landing 0 := by
  obtain ⟨marks, -, marked⟩ := tidy.exists_marked
  exact ((marked.widens.relabels tidy made).landing_rank 0).symm

theorem Tidy.exists_trap {c : Catch} (listed : c ∈ m.catches id) :
    ∃ t ∈ m.traps, t.toCatch = c := by
  cases place : m.order.toList.idxOf? id with
  | none => simp [catches, place] at listed
  | some position =>
    obtain ⟨inside, same, -⟩ := idxOf?_eq_some_iff.mp place
    rw [tidy.catches_eq (List.getElem?_eq_some_iff.mpr ⟨inside, same⟩)] at listed
    split at listed
    · rw [mem_foldl_addNew, mem_map] at listed
      obtain ⟨t, member, rfl⟩ := listed.resolve_left (by simp)
      exact ⟨t, (mem_filter.mp member).1, rfl⟩
    · cases listed

theorem Tidy.live_retrapped (made : m.RefersToMade)
    (member : id ∈ m.order.toList) (plain : (m.action id).isLabel = false) :
    m.retrapped.Live id ↔ m.Live id := by
  have visits : m.retrapped.Visits id ↔ m.Visits id := by
    refine visits_congr tidy (tidy.entry_retrapped made) ?_ ?_
    · rintro id ⟨position, here, -⟩ plain next
      exact tidy.follows_retrapped made (mem_of_getElem? here) plain
    · intro id live plain next
      refine exists_congr fun type => ?_
      rw [tidy.retrapped.mem_dispatch, tidy.mem_dispatch, tidy.catches_retrapped live]
      refine exists_congr fun c => and_congr_right fun listed => and_congr_right fun _ => ?_
      obtain ⟨t, member, rfl⟩ := tidy.exists_trap listed
      exact Eq.congr_left (tidy.handler_retrapped made member)
  obtain ⟨marks, -, marked⟩ := tidy.exists_marked
  have plain' : (m.retrapped.action id).isLabel = false :=
    (congrArg Action.isLabel (marked.widens.action id (tidy.made id member))).trans plain
  rw [← tidy.visits_iff plain, ← visits, tidy.retrapped.visits_iff plain']

end

end Retrapped

/-! ## Taking out what cannot be reached -/

section

variable (tidy : m.Tidy) (here : m.order.toList[position]? = some id)

include tidy here

theorem Tidy.mem_unreached :
    id ∈ m.unreached ↔
      ¬ (ofMethod m).Reaches position ∧ (m.action id).isLabel = false := by
  have entry : ∀ place : Nat, (ofMethod m).order[place]? =
      (m.order.toList[place]?).map fun id => (id, m.stmt id) := by
    intro place
    simp [ofMethod, body]
  rw [← isReachable_iff, unreached, mem_filterMap]
  simp only [entry]
  constructor
  · rintro ⟨place, -, found⟩
    cases there : m.order.toList[place]? with
    | none => simp [there] at found
    | some other =>
      simp only [there, Option.map_some] at found
      split at found
      next goes =>
        obtain rfl := Option.some.inj found
        rw [tidy.order_unique here there]
        simpa [isReachable, action] using goes
      · cases found
  · rintro ⟨dead, plain⟩
    refine ⟨position, ?_, ?_⟩
    · have inside := lt_of_get here
      simpa using inside
    · simp only [here, Option.map_some]
      rw [if_pos]
      simpa [isReachable, action] using And.intro dead plain

theorem Tidy.staysReached_iff :
    m.staysReached id = true ↔
      (ofMethod m).Reaches position ∨ (m.action id).isLabel = true := by
  have known := tidy.made id (mem_of_getElem? here)
  rw [staysReached, getD_flags _ (fun _ => true) _ _ (by simpa using known), Bool.not_eq_true']
  by_cases goes : id ∈ m.unreached
  · obtain ⟨dead, plain⟩ := (tidy.mem_unreached here).mp goes
    simp [goes, dead, plain]
  · have stays := mt (tidy.mem_unreached here).mpr goes
    rw [not_and_or, not_not, Bool.not_eq_false] at stays
    simp [goes, stays, known]

end

theorem Tidy.prunes_withoutUnreached (tidy : m.Tidy) :
    m.Prunes m.withoutUnreached m.staysReached := by
  obtain ⟨placed, -, equal, -⟩ := removeWhere_with tidy fun id => !m.staysReached id
  refine ⟨tidy, tidy.removeWhere _, ?_, ?_, ⟨fun _ => true, ?_, fun _ _ _ _ _ _ _ _ => rfl⟩,
    ?_, ?_, ?_⟩
  · rw [withoutUnreached, equal, Array.toList_filter]
    simp
  · intro id _
    refine ⟨fun _ => true, ?_⟩
    rw [Action.keepArgs_true, withoutUnreached, equal]
    rfl
  · rw [withoutUnreached, equal]
    simp
  · intro t _ id member label
    obtain ⟨position, here⟩ := mem_iff_getElem?.mp member
    refine (tidy.staysReached_iff here).mpr (.inr ?_)
    rcases label with label | label
    all_goals
      rw [label]
      rfl
  · exact fun position id here reached => (tidy.staysReached_iff here).mpr (.inl reached)
  · intro position id here plain stays
    refine ((tidy.staysReached_iff here).mp stays).resolve_right ?_
    simp [plain]

/-! ## What the new ranges cover -/

theorem Marked.exists_mark (marked : m.Marked k marks traps) (member : t ∈ traps) :
    ∃ x ∈ marks, t ∈ x.traps := by
  rw [marked.table] at member
  exact mem_flatMap.mp member

theorem Tidy.exists_covered (tidy : m.Tidy) (member : t ∈ m.retrapped.traps) :
    ∃ id, m.Live id ∧ (m.action id).canThrow = true ∧ m.retrapped.Covers t id := by
  obtain ⟨marks, runs, marked⟩ := tidy.exists_marked
  obtain ⟨x, listed, inside⟩ := marked.exists_mark member
  have cut : x.run ∈ m.cuts := runs ▸ mem_map_of_mem listed
  have is := m.splitsInto_cuts.each x.run cut
  have bound := lt_of_le_of_lt is.le (m.splitsInto_cuts.high x.run cut)
  have bound' : x.run.first < m.order.toList.length := by simpa using bound
  have here := getElem?_eq_getElem bound'
  have member' := getElem_mem bound'
  have some : m.liveCatches x.run.first ≠ [] := is.first ▸ is.catches
  unfold liveCatches at some
  split at some
  next reached =>
    rw [tidy.catchesAt_eq here] at some
    split at some
    next throws =>
      obtain ⟨place, there⟩ := mem_iff_getElem?.mp (marked.widens.within.subset member')
      refine ⟨_, ⟨_, here, reached⟩, throws, (tidy.retrapped.covers_iff there).mpr ⟨member, ?_⟩⟩
      exact ((marked.each x listed).covered_iff marked.widens.tidy inside here there).mpr
        ⟨le_rfl, is.le⟩
    · exact absurd rfl some
  · exact absurd rfl some

/-- The new ranges cover nothing but what can throw, labels and empty statements. -/
theorem Tidy.throws_of_covers (tidy : m.Tidy) (covers : m.retrapped.Covers t id) :
    (m.retrapped.action id).canThrow = true ∨ (m.retrapped.action id).isFiller = true := by
  obtain ⟨marks, runs, marked⟩ := tidy.exists_marked
  have ⟨place, _, there, _⟩ := covers
  obtain ⟨member, covered⟩ := (tidy.retrapped.covers_iff there).mp covers
  obtain ⟨x, listed, inside⟩ := marked.exists_mark member
  have cut : x.run ∈ m.cuts := runs ▸ mem_map_of_mem listed
  have is := m.splitsInto_cuts.each x.run cut
  by_cases old : id < m.stmts.size
  · have member' : id ∈ m.order.toList := by
      rw [← marked.widens.order]
      exact mem_filter.mpr ⟨mem_of_getElem? there, by simpa using old⟩
    have same : m.retrapped.action id = m.action id := marked.widens.action id old
    obtain ⟨position, here⟩ := mem_iff_getElem?.mp member'
    obtain ⟨low, high⟩ :=
      ((marked.each x listed).covered_iff marked.widens.tidy inside here there).mp covered
    rw [same]
    rcases is.inside position low high with filler | catches
    · rw [action_ofMethod, getElem?_actions here, Option.getD_some] at filler
      exact .inr filler
    · have some : m.liveCatches position ≠ [] := catches ▸ is.catches
      unfold liveCatches at some
      rw [tidy.catchesAt_eq here] at some
      left
      by_contra quiet
      simp [quiet] at some
  · obtain ⟨index, -, label⟩ := marked.widens.new id (mem_of_getElem? there)
      (Nat.le_of_not_lt old)
    have label' : m.retrapped.action id = .label (.number index) := label
    rw [label']
    exact .inr rfl

theorem Tidy.apart_of_covers (tidy : m.Tidy) {t' : Trap}
    (different : ¬ (t.start = t'.start ∧ t.stop = t'.stop)) (covers : m.retrapped.Covers t id) :
    ¬ m.retrapped.Covers t' id := by
  intro covers'
  obtain ⟨marks, runs, marked⟩ := tidy.exists_marked
  have tidy' := marked.widens.tidy
  have enclosed : ∀ {t}, m.retrapped.Covers t id → ∃ x ∈ marks, t ∈ x.traps ∧
      m.markRuns.1.Before x.opening id ∧ m.markRuns.1.Before id x.closing := by
    intro t covers
    have ⟨place, _, there, _⟩ := covers
    obtain ⟨member, covered⟩ := (tidy.retrapped.covers_iff there).mp covers
    obtain ⟨x, listed, inside⟩ := marked.exists_mark member
    have cut : x.run ∈ m.cuts := runs ▸ mem_map_of_mem listed
    have bound := m.splitsInto_cuts.high x.run cut
    have bound' : x.run.last < m.order.toList.length := by simpa using bound
    obtain ⟨first, last⟩ := (marked.each x listed).mem_order (getElem?_eq_getElem bound')
    obtain ⟨c, -, rfl⟩ := mem_map.mp inside
    exact ⟨x, listed, inside, (tidy'.covered_iff_before first (marked.each x listed).opens last
      (marked.each x listed).closes there).mp covered⟩
  obtain ⟨x, listed, inside, low, high⟩ := enclosed covers
  obtain ⟨y, listed', inside', low', high'⟩ := enclosed covers'
  obtain ⟨i, here⟩ := mem_iff_getElem?.mp listed
  obtain ⟨j, there⟩ := mem_iff_getElem?.mp listed'
  have apart := pairwise_iff_getElem.mp marked.apart
  obtain ⟨boundI, rfl⟩ := List.getElem?_eq_some_iff.mp here
  obtain ⟨boundJ, rfl⟩ := List.getElem?_eq_some_iff.mp there
  rcases Nat.lt_trichotomy i j with less | rfl | greater
  · exact tidy'.not_before_self ((high.trans tidy' (apart i j boundI boundJ less)).trans tidy' low')
  · obtain ⟨c, -, rfl⟩ := mem_map.mp inside
    obtain ⟨c', -, rfl⟩ := mem_map.mp inside'
    exact different ⟨rfl, rfl⟩
  · exact tidy'.not_before_self
      ((high'.trans tidy' (apart j i boundJ boundI greater)).trans tidy' low)

/-! ## Taking out what the new table leaves over -/

section Cleaning

variable {keep : StmtId → Bool}

theorem Prunes.catches_eq (prunes : m.Prunes n keep) (live : m.Live id) :
    n.catches id = m.catches id := by
  obtain ⟨position, here, live⟩ := live
  have reached := isReachable_iff.mp live
  have kept := prunes.live position id here reached
  have there := prunes.thins.at_rank here kept
  obtain ⟨test, same⟩ := prunes.action id (mem_of_getElem? there)
  rw [prunes.target.catches_eq there, prunes.source.catches_eq here, same, Action.canThrow_keepArgs]
  split
  next throws => rw [prunes.caughtAt_rank reached (getElem?_actions here) throws]
  · rfl

theorem Relabels.catches_eq (relabels : m.Relabels n keep fun l => l)
    (member : id ∈ m.order.toList) (plain : (m.action id).isLabel = false) :
    n.catches id = m.catches id := by
  obtain ⟨position, here⟩ := mem_iff_getElem?.mp member
  have kept := relabels.kept_of_plain here plain
  have same : (m.caughtAt position).map (Trap.mapLabels fun l => l) = m.caughtAt position :=
    map_id _
  rw [relabels.target.catches_eq (relabels.thins.at_rank here kept), relabels.source.catches_eq here,
    relabels.action_of_kept here kept, Action.canThrow_mapLabels, relabels.caughtAt_rank here plain,
    same]

theorem SameFlow.live_iff (same : m.SameFlow n) (tidy : m.Tidy) (tidy' : n.Tidy)
    (plain : (m.action id).isLabel = false) (plain' : (n.action id).isLabel = false) :
    n.Live id ↔ m.Live id := by
  rw [← tidy.visits_iff plain, ← same.visits tidy, tidy'.visits_iff plain']

theorem Tidy.covers_of_within (tidy : m.Tidy) (tidy' : n.Tidy)
    (within : n.order.toList.Sublist m.order.toList)
    (action : ∀ id ∈ n.order.toList, n.action id = m.action id) (traps : n.traps = m.traps)
    (covers : n.Covers t id) : m.Covers t id := by
  have ⟨place, _, there, _⟩ := covers
  obtain ⟨member, covered⟩ := (tidy'.covers_iff there).mp covers
  obtain ⟨position, here⟩ := mem_iff_getElem?.mp (within.subset (mem_of_getElem? there))
  refine (tidy.covers_iff here).mpr ⟨traps ▸ member, ?_⟩
  have labels := covered
  unfold Method.covered at labels
  split at labels
  next start stop isStart isStop =>
    obtain ⟨opening, atStart, opens⟩ := exists_order (tidy'.find?_eq_some.mp isStart)
    obtain ⟨closing, atStop, closes⟩ := exists_order (tidy'.find?_eq_some.mp isStop)
    have first := mem_of_getElem? atStart
    have last := mem_of_getElem? atStop
    have between := (tidy'.covered_iff_before first opens last closes there).mp covered
    exact (tidy.covered_iff_before (within.subset first) (action opening first ▸ opens)
      (within.subset last) (action closing last ▸ closes) here).mpr
        (between.imp (·.mono within) (·.mono within))
  · cases labels

theorem Prunes.covers_iff (prunes : m.Prunes n keep) (member : t ∈ n.traps) (live : m.Live id)
    (covers : m.Covers t id) : n.Covers t id := by
  obtain ⟨position, here, live⟩ := live
  have kept := prunes.live position id here (isReachable_iff.mp live)
  refine (prunes.target.covers_iff (prunes.thins.at_rank here kept)).mpr ⟨member, ?_⟩
  rw [prunes.covered_rank here kept member]
  exact ((prunes.source.covers_iff here).mp covers).2

theorem Relabels.covers_of_plain (relabels : m.Relabels n keep fun l => l)
    (plain : (m.action id).isLabel = false) (covers : m.Covers t id) : n.Covers t id := by
  have ⟨position, _, here, _⟩ := covers
  obtain ⟨member, covered⟩ := (relabels.source.covers_iff here).mp covers
  have kept := relabels.kept_of_plain here plain
  have same : m.traps.map (Trap.mapLabels fun l => l) = m.traps := map_id _
  refine (relabels.target.covers_iff (relabels.thins.at_rank here kept)).mpr ⟨?_, ?_⟩
  · rwa [relabels.traps, same]
  · have stays := relabels.covered_rank here plain member
    exact stays.trans covered

/-- The second method is the first one with only what can be reached, and fewer labels. -/
structure Cleans (k n : Method) : Prop where
  tidy : n.Tidy
  within : n.order.toList.Sublist k.order.toList
  action : ∀ id ∈ n.order.toList, n.action id = k.action id
  traps : n.traps = k.traps
  flow : k.SameFlow n
  stays : ∀ id ∈ k.order.toList, (k.action id).isLabel = false →
    (id ∈ n.order.toList ↔ k.Live id)
  catches : ∀ id, k.Live id → (k.action id).isLabel = false → n.catches id = k.catches id
  covers : ∀ t ∈ k.traps, ∀ id, k.Live id → (k.action id).isLabel = false → k.Covers t id →
    n.Covers t id

theorem Tidy.cleans (tidy : k.Tidy) : k.Cleans k.withoutUnreached.removeUnusedLabels := by
  have prunes := tidy.prunes_withoutUnreached
  have relabels := prunes.target.relabels_removeUnusedLabels
  obtain ⟨placed, -, equal, -⟩ := removeWhere_with tidy fun id => !k.staysReached id
  have same : ∀ id, k.withoutUnreached.action id = k.action id := by
    intro id
    rw [withoutUnreached, equal]
    rfl
  have traps : k.withoutUnreached.traps = k.traps := by rw [withoutUnreached, equal]
  have traps' : k.withoutUnreached.removeUnusedLabels.traps = k.withoutUnreached.traps :=
    relabels.traps.trans (map_id _)
  have within : k.withoutUnreached.order.toList.Sublist k.order.toList :=
    prunes.order ▸ filter_sublist
  have kept : ∀ {id}, k.Live id → id ∈ k.withoutUnreached.order.toList := by
    rintro id ⟨position, here, live⟩
    exact mem_of_getElem?
      (prunes.thins.at_rank here (prunes.live position id here (isReachable_iff.mp live)))
  have stays : ∀ {id}, id ∈ k.withoutUnreached.order.toList → (k.action id).isLabel = false →
      id ∈ k.withoutUnreached.removeUnusedLabels.order.toList := by
    intro id member plain
    obtain ⟨position, here⟩ := mem_iff_getElem?.mp member
    have plain' : (k.withoutUnreached.action id).isLabel = false := by rw [same, plain]
    exact mem_of_getElem? (relabels.thins.at_rank here (relabels.kept_of_plain here plain'))
  refine ⟨relabels.target, (relabels.order ▸ filter_sublist).trans within, ?_,
    traps'.trans traps, ?_, ?_, ?_, ?_⟩
  · intro id member
    rw [relabels.action id member, Action.mapLabels_id, same]
  · refine prunes.sameFlow.trans tidy prunes.target relabels.sameFlow ?_
    intro id _ plain
    rw [same, plain]
  · intro id member plain
    refine ⟨fun member' => ?_, fun live => stays (kept live) plain⟩
    obtain ⟨position, here⟩ := mem_iff_getElem?.mp member
    rw [relabels.order, mem_filter, prunes.order, mem_filter] at member'
    exact ⟨position, here, isReachable_iff.mpr (prunes.dead position id here plain member'.1.2)⟩
  · intro id live plain
    rw [relabels.catches_eq (kept live) (by rw [same, plain]), prunes.catches_eq live]
  · intro t member id live plain covers
    exact relabels.covers_of_plain (by rw [same, plain])
      (prunes.covers_iff (traps ▸ member) live covers)

end Cleaning

/-! ## The table is built anew -/

/-- When there are traps, building the table anew keeps what takes the exceptions of each statement
that can be reached, in order and without repetitions, and what follows it; each range covers
something that can be reached and throw, and nothing that cannot throw but labels and empty
statements; different ranges have nothing in common; and the statements that stay are, labels
aside, those that can be reached. -/
theorem trimTraps_keeps_dispatch (m : Method) (tidy : m.Tidy) (some : m.traps ≠ [])
    (made : m.RefersToMade) :
    (∀ id, m.Live id → m.trimTraps.catches id = m.catches id) ∧
    m.trimTraps.landing 0 = m.landing 0 ∧
    (∀ id, m.Live id → (m.action id).isLabel = false →
      ∀ next, m.trimTraps.Follows id next ↔ m.Follows id next) ∧
    (∀ t ∈ m.trimTraps.traps, (∃ id, m.trimTraps.Live id ∧ (m.trimTraps.action id).canThrow = true ∧
        m.trimTraps.Covers t id) ∧
      ∀ id, m.trimTraps.Covers t id →
        (m.trimTraps.action id).canThrow = true ∨ (m.trimTraps.action id).isFiller = true) ∧
    (∀ t ∈ m.trimTraps.traps, ∀ t' ∈ m.trimTraps.traps, ¬ (t.start = t'.start ∧ t.stop = t'.stop) →
        ∀ id, m.trimTraps.Covers t id → ¬ m.trimTraps.Covers t' id) ∧
    (∀ id ∈ m.order.toList, (m.action id).isLabel = false →
      (id ∈ m.trimTraps.order.toList ↔ m.Live id)) ∧
    (∀ id ∈ m.trimTraps.order.toList, (m.trimTraps.action id).isLabel = false →
      id ∈ m.order.toList ∧ m.trimTraps.action id = m.action id) := by
  obtain ⟨marks, -, marked⟩ := tidy.exists_marked
  have tidy' := tidy.retrapped
  have cleans := tidy'.cleans
  have within : m.order.toList.Sublist m.retrapped.order.toList := marked.widens.within
  have old : ∀ {id}, id ∈ m.order.toList → m.retrapped.action id = m.action id :=
    fun member => marked.widens.action _ (tidy.made _ member)
  have listed : ∀ {id}, m.Live id → id ∈ m.order.toList := fun ⟨_, here, _⟩ =>
    mem_of_getElem? here
  have live : ∀ {id}, m.Live id → (m.action id).isLabel = false → m.retrapped.Live id :=
    fun alive plain => (tidy.live_retrapped made (listed alive) plain).mpr alive
  have plainly : ∀ {id}, id ∈ m.order.toList → (m.action id).isLabel = false →
      (m.retrapped.action id).isLabel = false := fun member plain => by rw [old member, plain]
  have lift : ∀ {t id}, m.retrapped.withoutUnreached.removeUnusedLabels.Covers t id →
      m.retrapped.Covers t id :=
    tidy'.covers_of_within cleans.tidy cleans.within cleans.action cleans.traps
  rw [trimTraps_eq some]
  refine ⟨?_, ?_, ?_, ?_, ?_, ?_, ?_⟩
  · intro id alive
    cases plain : (m.action id).isLabel with
    | false =>
      rw [cleans.catches id (live alive plain) (plainly (listed alive) plain),
        tidy.catches_retrapped alive]
    | true =>
      have quiet : (m.action id).canThrow = false := by
        obtain ⟨l, label⟩ := Option.isSome_iff_exists.mp plain
        rw [Action.label?_eq_some] at label
        rw [label]
        rfl
      rw [tidy.catches_of_quiet quiet]
      by_cases member : id ∈ m.retrapped.withoutUnreached.removeUnusedLabels.order.toList
      · exact cleans.tidy.catches_of_quiet (by rw [cleans.action id member, old (listed alive), quiet])
      · simp [catches, idxOf?_eq_none_iff.mpr member]
  · rw [cleans.flow.entry, tidy.entry_retrapped made]
  · intro id alive plain next
    rw [cleans.flow.follows id (live alive plain) (plainly (listed alive) plain),
      tidy.follows_retrapped made (listed alive) plain]
  · intro t member
    rw [cleans.traps] at member
    constructor
    · obtain ⟨id, alive, throws, covers⟩ := tidy.exists_covered member
      have plain : (m.action id).isLabel = false := by
        cases action : m.action id with
        | label =>
          rw [action] at throws
          cases throws
        | _ => rfl
      have plain' := plainly (listed alive) plain
      have alive' := live alive plain
      have stays := (cleans.stays id (within.subset (listed alive)) plain').mpr alive'
      have same := cleans.action id stays
      refine ⟨id, ?_, by rw [same, old (listed alive), throws],
        cleans.covers t member id alive' plain' covers⟩
      exact (cleans.flow.live_iff tidy' cleans.tidy plain' (same ▸ plain')).mpr alive'
    · intro id covers
      have ⟨_, _, there, _⟩ := covers
      rw [cleans.action id (mem_of_getElem? there)]
      exact tidy.throws_of_covers (lift covers)
  · intro t _ t' _ different id covers covers'
    exact tidy.apart_of_covers different (lift covers) (lift covers')
  · intro id member plain
    rw [cleans.stays id (within.subset member) (plainly member plain),
      tidy.live_retrapped made member plain]
  · intro id member plain
    rw [cleans.action id member] at plain ⊢
    have member' := cleans.within.subset member
    by_cases new : id < m.stmts.size
    · have member'' : id ∈ m.order.toList := by
        rw [← marked.widens.order]
        exact mem_filter.mpr ⟨member', by simpa using new⟩
      exact ⟨member'', old member''⟩
    · obtain ⟨index, -, label⟩ := marked.widens.new id member' (Nat.le_of_not_lt new)
      have label' : m.retrapped.action id = .label (.number index) := label
      rw [label'] at plain
      cases plain

instance (m : Method) : Decidable m.RefersToMade :=
  decidable_of_iff (m.mentioned.all fun
    | .nowhere => true
    | .number index => decide (index < m.placed.size)) (by
      rw [all_eq_true]
      constructor
      · exact fun all index listed => by simpa using all _ listed
      · intro made l listed
        cases l with
        | nowhere => rfl
        | number index => simpa using made index listed)

/-- A method with two ranges that overlap, one of them entered twice, an empty statement inside and
another that cannot be reached. -/
def overlapping : Method :=
  { owner := "La;", name := "m", desc := "()V", access := ⟨8⟩, params := [], result := "V"
    traps := [⟨.number 0, .number 2, .number 3, "LA;"⟩, ⟨.number 1, .number 2, .number 4, ∅⟩,
      ⟨.number 0, .number 2, .number 3, "LA;"⟩]
    stmts := #[⟨.label (.number 0), none⟩,
      ⟨.void (.node (.invoke .static ⟨"La;", "f", ⟨[], "V"⟩⟩) []), none⟩,
      ⟨.label (.number 1), none⟩,
      ⟨.void (.node (.invoke .static ⟨"La;", "g", ⟨[], "V"⟩⟩) []), none⟩, ⟨.nop, none⟩,
      ⟨.void (.node (.invoke .static ⟨"La;", "h", ⟨[], "V"⟩⟩) []), none⟩,
      ⟨.label (.number 2), none⟩, ⟨.return none, none⟩, ⟨.nop, none⟩, ⟨.label (.number 3), none⟩,
      ⟨.return none, none⟩, ⟨.label (.number 4), none⟩, ⟨.return none, none⟩]
    order := #[0, 1, 2, 3, 4, 5, 6, 7, 8, 9, 10, 11, 12]
    placed := #[some 0, some 2, some 6, some 9, some 11] }

/-- The table of the method when it is built anew: one range for the first call, one for the other
two. -/
example : overlapping.trimTraps.traps.map (fun t => (t.start, t.stop, t.handler)) =
    [(.number 5, .number 6, .number 3), (.number 7, .number 8, .number 3),
      (.number 7, .number 8, .number 4)] := by
  decide +kernel

/-- Calls of the method are caught as before, and the statement that cannot be reached is gone. -/
theorem trimTraps_keeps_dispatch_overlapping :
    overlapping.trimTraps.catches 3 = overlapping.catches 3 ∧
      8 ∉ overlapping.trimTraps.order.toList := by
  obtain ⟨catches, -, -, -, -, stays, -⟩ := trimTraps_keeps_dispatch overlapping
    (by decide) (by decide) (by decide)
  refine ⟨catches 3 (by with_unfolding_all decide), fun member => ?_⟩
  exact absurd ((stays 8 (by decide) (by decide)).mp member) (by with_unfolding_all decide)

/-- A method without traps and with an empty statement that cannot be reached. -/
def untrapped : Method :=
  { owner := "La;", name := "m", desc := "()V", access := ⟨8⟩, params := [], result := "V"
    stmts := #[⟨.goto (.number 0), none⟩, ⟨.nop, none⟩, ⟨.label (.number 0), none⟩,
      ⟨.return none, none⟩]
    order := #[0, 1, 2, 3]
    placed := #[some 2] }

/-- Without traps nothing is taken out. -/
theorem trimTraps_keeps_unreached : untrapped.Tidy ∧ untrapped.RefersToMade ∧
    ¬ ∀ id ∈ untrapped.order.toList, (untrapped.action id).isLabel = false →
      (id ∈ untrapped.trimTraps.order.toList ↔ untrapped.Live id) := by
  refine ⟨by decide, by decide, fun stays => ?_⟩
  exact absurd ((stays 1 (by decide) (by decide)).mp (by decide)) (by with_unfolding_all decide)

end Method

end DexLift.Ir
