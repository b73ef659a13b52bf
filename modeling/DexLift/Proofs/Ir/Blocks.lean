import DexLift.Ir.Blocks
import DexLift.Proofs.Ir.Flow
import DexLift.Proofs.Ir.Places

/-!
# Blocks as a quotient of the statement graph

The blocks cut a body into runs of statements. Inside a run control can only go
on to the next statement, so that the edges of the statement graph between runs
are those of the last statements and those along which exceptions are thrown.
The block graph has all of these but one kind: the statement graph lets control
run on from a switch to the statement behind it, and a block that ends with a
switch leads to the labels of the switch alone.
-/

namespace DexLift

open List

namespace Outcome

theorem exists_mapM {α β : Type} {each : α → Outcome β} {values : List α}
    (done : ∀ a ∈ values, ∃ b, each a = .ok b) :
    ∃ results, values.mapM each = .ok results ∧ results.length = values.length ∧
      ∀ (k : Nat) b, results[k]? = some b → ∃ a, values[k]? = some a ∧ each a = .ok b := by
  induction values with
  | nil => exact ⟨[], rfl, rfl, nofun⟩
  | cons a values ih =>
    obtain ⟨b, first⟩ := done a mem_cons_self
    obtain ⟨results, others, paired, at_⟩ :=
      ih fun a member => done a (.tail _ member)
    refine ⟨b :: results, ?_, congrArg Nat.succ paired, fun k c found => ?_⟩
    · rw [mapM_cons, first, others]
      rfl
    · cases k with
      | zero => exact ⟨a, rfl, first.trans (congrArg Except.ok (Option.some.inj found))⟩
      | succ k => exact at_ k c found

end Outcome

namespace Ir

/-! ## Runs of positions -/

structure InRun (starts : List Nat) (k position : Nat) : Prop where
  begins : ∃ start, starts[k]? = some start ∧ start ≤ position
  ends : ∀ next, starts[k + 1]? = some next → position < next

section Runs

variable {starts : List Nat} {k position start : Nat}

/-- In an ascending list of starts, the run of a position is that with as many starts before it as
there are up to the position. -/
theorem InRun.blockOf_eq (sorted : starts.Pairwise (· < ·)) (inside : InRun starts k position) :
    blockOf starts position = k := by
  obtain ⟨start, here, low⟩ := inside.begins
  obtain ⟨bound, rfl⟩ := List.getElem?_eq_some_iff.mp here
  rw [pairwise_iff_getElem] at sorted
  have early : (starts.take (k + 1)).filter (· ≤ position) = starts.take (k + 1) := by
    refine filter_eq_self.mpr fun a member => ?_
    obtain ⟨i, less, rfl⟩ := mem_take_iff_getElem.mp member
    have upTo : starts[i] ≤ starts[k] := by grind
    simpa using Nat.le_trans upTo low
  have late : (starts.drop (k + 1)).filter (· ≤ position) = [] := by
    refine filter_eq_nil_iff.mpr fun a member => ?_
    obtain ⟨i, less, rfl⟩ := mem_drop_iff_getElem.mp member
    have more : k + 1 < starts.length := by omega
    have next := inside.ends starts[k + 1] (getElem?_eq_getElem more)
    have upFrom : starts[k + 1] ≤ starts[k + 1 + i] := by
      rcases Nat.eq_zero_or_pos i with rfl | later
      · exact Nat.le_refl _
      · exact Nat.le_of_lt (sorted (k + 1) (k + 1 + i) more _ (by omega))
    simpa using Nat.lt_of_lt_of_le next upFrom
  rw [blockOf, ← take_append_drop (k + 1) starts, filter_append, early, late,
    append_nil, length_take]
  omega

theorem exists_inRun (member : start ∈ starts) (low : start ≤ position) :
    ∃ k, InRun starts k position := by
  induction starts generalizing start with
  | nil => cases member
  | cons first rest ih =>
    by_cases later : ∃ other ∈ rest, other ≤ position
    · obtain ⟨other, listed, below⟩ := later
      obtain ⟨k, begins, ends⟩ := ih listed below
      exact ⟨k + 1, begins, ends⟩
    · have here : first ≤ position := by grind
      refine ⟨0, ⟨first, rfl, here⟩, fun next found => ?_⟩
      have listed : next ∈ rest := mem_of_getElem? found
      exact Nat.lt_of_not_le fun below => later ⟨next, listed, below⟩

theorem InRun.not_mem (sorted : starts.Pairwise (· < ·)) (inside : InRun starts k position)
    (here : starts[k]? = some start) (behind : start < position) : position ∉ starts := by
  intro member
  obtain ⟨i, found⟩ := mem_iff_getElem?.mp member
  have own : InRun starts i position := by
    refine ⟨⟨position, found, Nat.le_refl _⟩, fun next after => ?_⟩
    obtain ⟨bound, rfl⟩ := List.getElem?_eq_some_iff.mp found
    obtain ⟨more, rfl⟩ := List.getElem?_eq_some_iff.mp after
    exact pairwise_iff_getElem.mp sorted i (i + 1) bound more (Nat.lt_succ_self i)
  have same : i = k := (own.blockOf_eq sorted).symm.trans (inside.blockOf_eq sorted)
  rw [same, here] at found
  exact Nat.ne_of_lt behind (Option.some.inj found)

end Runs

/-! ## Where blocks begin -/

section Leaders

variable {actions : List Action} {position : Nat} {a : Action}

theorem mem_behind_ends :
    position ∈ (actions.zipIdx.filterMap fun (action, i) =>
      if action.endsBlock then some (i + 1) else none) ↔
    ∃ before b, before + 1 = position ∧ actions[before]? = some b ∧ b.endsBlock = true := by
  simp only [mem_filterMap, Prod.exists, mem_zipIdx_iff_getElem?,
    Option.ite_none_right_eq_some, Option.some.injEq]
  constructor
  · rintro ⟨b, before, found, ended, next⟩
    exact ⟨before, b, next, found, ended⟩
  · rintro ⟨before, b, next, found, ended⟩
    exact ⟨b, before, found, ended, next⟩

theorem mem_leaders : position ∈ leaders actions ↔ ∃ a, actions[position]? = some a ∧
    (position = 0 ∨ a.isLabel = true ∨
      ∃ before b, before + 1 = position ∧ actions[before]? = some b ∧ b.endsBlock = true) := by
  simp only [leaders, mem_map, mem_filter, Prod.exists, mem_zipIdx_iff_getElem?,
    Bool.or_eq_true, contains_iff_mem, mem_behind_ends, beq_iff_eq, or_assoc]
  constructor
  · rintro ⟨a, i, ⟨found, why⟩, rfl⟩
    exact ⟨a, found, why⟩
  · rintro ⟨a, found, why⟩
    exact ⟨a, position, ⟨found, why⟩, rfl⟩

theorem sorted_leaders (actions : List Action) : (leaders actions).Pairwise (· < ·) := by
  have sub : (leaders actions).Sublist (actions.zipIdx.map Prod.snd) :=
    filter_sublist.map Prod.snd
  rw [zipIdx_map_snd] at sub
  exact Pairwise.sublist sub pairwise_lt_range'

theorem lt_of_mem_leaders (member : position ∈ leaders actions) : position < actions.length := by
  obtain ⟨a, found, -⟩ := mem_leaders.mp member
  exact lt_of_get found

theorem exists_inRun_leaders (inside : position < actions.length) :
    ∃ k, InRun (leaders actions) k position := by
  have first : 0 < actions.length := Nat.lt_of_le_of_lt (Nat.zero_le _) inside
  exact exists_inRun (mem_leaders.mpr ⟨_, getElem?_eq_getElem first, .inl rfl⟩)
    (Nat.zero_le position)

theorem endsBlock_of_not_mem (inside : position + 1 < actions.length)
    (notFirst : position + 1 ∉ leaders actions) (found : actions[position]? = some a) :
    a.endsBlock = false := by
  rw [Bool.eq_false_iff]
  intro ended
  exact notFirst (mem_leaders.mpr ⟨_, getElem?_eq_getElem inside,
    .inr (.inr ⟨position, a, rfl, found, ended⟩)⟩)

end Leaders

namespace Action

variable {a : Action}

/-- Whether control runs on into the next block from a statement at the end of one. It never does
from a switch, which always goes to one of its labels. -/
def runsOn : Action → Bool
  | switch .. => false
  | a => a.fallsThrough

theorem fallsThrough_of_runsOn (on : a.runsOn = true) : a.fallsThrough = true := by
  cases a <;> first | exact on | cases on

theorem exists_switch (falls : a.fallsThrough = true) (notOn : ¬ a.runsOn = true) :
    ∃ value keys targets default, a = .switch value keys targets default := by
  cases a with
  | switch value keys targets default => exact ⟨value, keys, targets, default, rfl⟩
  | _ => exact absurd falls notOn

def hasKeys : Action → Bool
  | switch _ keys targets _ => targets.length ≤ keys.length
  | _ => true

end Action

/-! ## The edges of one block -/

namespace Block

def Holds (b : Block) (position : Nat) : Prop := b.start ≤ position ∧ position < b.stop

/-- The block has a normal edge to another. -/
def GoesTo (b c : Block) : Prop := ∃ e ∈ b.succs, e.block = c.id ∧ e.cond ≠ ("E" : Text)

/-- The block has an exceptional edge to another. -/
def ThrowsTo (b c : Block) : Prop := ∃ e ∈ b.succs, e.block = c.id ∧ e.cond = ("E" : Text)

/-- Some statement of the block has an edge to a statement of another block, or of the same, that is
not just the next statement inside the block. -/
def Leaves (edge : Nat → Nat → Prop) (b c : Block) : Prop :=
  ∃ i j, b.Holds i ∧ c.Holds j ∧ edge i j ∧ ¬ (j = i + 1 ∧ b.Holds j)

end Block

namespace Method

variable {m : Method}

/-- Control goes from a statement to another one: to the next, when it runs on, or to the place of a
label. -/
def Proceeds (m : Method) (i j : Nat) : Prop :=
  (((Flow.ofMethod m).action i).runsOn = true ∧ i + 1 < m.order.size ∧ j = i + 1) ∨
    ∃ l ∈ ((Flow.ofMethod m).action i).targets, m.positionOf? l = some j

def placeOf (m : Method) (l : Label) : Nat := (m.positionOf? l).getD 0

/-- The edge for a case of a switch, a target and its number. -/
def caseEdge (m : Method) (keys : List Int32) (pair : Label × Nat) : Nat × Text :=
  (m.placeOf pair.1, "case " ++ Text.ofInt (keys[pair.2]?.getD 0).toInt)

theorem caseEdge_ne (m : Method) (keys : List Int32) (pair : Label × Nat) :
    (m.caseEdge keys pair).2 ≠ "E" := by
  intro same
  have first : some (99 : UInt8) = some 69 := congrArg Text.first? same
  cases first

/-- The last statement of a block leads to the next block, when it runs on, and to the places of its
labels, never for an exception. -/
theorem exists_lastEdges {size stop : Nat} {last : Action}
    (placed : ∀ l ∈ last.targets, (m.positionOf? l).isSome = true) (keyed : last.hasKeys = true) :
    ∃ edges, lastEdges m size stop last = .ok edges ∧ (∀ j, (j, ("E" : Text)) ∉ edges) ∧
      ∀ j, j ∈ edges.map Prod.fst ↔ (last.runsOn = true ∧ stop < size ∧ j = stop) ∨
        ∃ l ∈ last.targets, m.positionOf? l = some j := by
  have apart : ("E" : Text) ≠ "T" ∧ ("E" : Text) ≠ "F" ∧ ("E" : Text) ≠ "" ∧
      ("E" : Text) ≠ "default" := by decide
  obtain ⟨notTaken, notPassed, notPlain, notDefault⟩ := apart
  have found : ∀ l ∈ last.targets, m.positionOf? l = some (m.placeOf l) := by
    intro l listed
    obtain ⟨position, here⟩ := Option.isSome_iff_exists.mp (placed l listed)
    rw [placeOf, here, Option.getD_some]
  cases last with
  | branch cond left right target =>
    have here := found target (by simp [Action.targets])
    refine ⟨(m.placeOf target, "T") :: if stop < size then [(stop, "F")] else [], ?_, ?_, ?_⟩
    · simp only [lastEdges, here]
      rfl
    · simp [notTaken, notPassed]
    · simp [Action.runsOn, Action.fallsThrough, Action.targets, here, or_comm, eq_comm]
  | goto target =>
    have here := found target (by simp [Action.targets])
    refine ⟨[(m.placeOf target, "")], ?_, ?_, ?_⟩
    · simp only [lastEdges, here]
      rfl
    · simp [notPlain]
    · simp [Action.runsOn, Action.fallsThrough, Action.targets, here, eq_comm]
  | switch value keys targets default =>
    have here := found default (by simp [Action.targets])
    have cases : ∀ pair ∈ targets.zipIdx, (do
        let key ← Outcome.ofOption keys[pair.2]?
        return (← Outcome.ofOption (m.positionOf? pair.1), "case " ++ Text.ofInt key.toInt)) =
        Except.ok (ε := Stop) (m.caseEdge keys pair) := by
      rintro ⟨target, k⟩ member
      have listed := mem_zipIdx_iff_getElem?.mp member
      have inKeys : k < keys.length :=
        Nat.lt_of_lt_of_le (lt_of_get listed) (of_decide_eq_true keyed)
      have there := found target (mem_cons_of_mem _ (mem_of_getElem? listed))
      rw [caseEdge, there, getElem?_eq_getElem inKeys]
      rfl
    refine ⟨targets.zipIdx.map (m.caseEdge keys) ++
      [(m.placeOf default, ("default" : Text))], ?_, ?_, ?_⟩
    · simp only [lastEdges]
      rw [Outcome.mapM_of_ok cases, Outcome.ok_bind, here]
      rfl
    · intro j member
      rcases mem_append.mp member with listed | listed
      · obtain ⟨pair, -, same⟩ := mem_map.mp listed
        exact m.caseEdge_ne keys pair (congrArg Prod.snd same)
      · simp [notDefault] at listed
    · intro j
      have places : (targets.zipIdx.map (m.caseEdge keys)).map Prod.fst =
          targets.map m.placeOf := by
        conv_rhs => rw [← zipIdx_map_fst 0 targets]
        rw [map_map, map_map]
        rfl
      rw [map_append, places]
      simp only [Action.runsOn, Bool.false_eq_true, false_and, false_or, mem_append]
      constructor
      · rintro (listed | listed)
        · obtain ⟨l, target, rfl⟩ := mem_map.mp listed
          exact ⟨l, mem_cons_of_mem _ target, found l (.tail _ target)⟩
        · obtain rfl := mem_singleton.mp listed
          exact ⟨default, mem_cons_self, here⟩
      · rintro ⟨l, target, place⟩
        obtain rfl := Option.some.inj ((found l target).symm.trans place)
        rcases mem_cons.mp target with rfl | listed
        · exact .inr mem_cons_self
        · exact .inl (mem_map_of_mem listed)
  | «return» value | throw value =>
    exact ⟨[], rfl, by simp, by simp [Action.runsOn, Action.fallsThrough, Action.targets]⟩
  | _ =>
    refine ⟨if stop < size then [(stop, "")] else [], rfl, ?_, ?_⟩
    · simp [notPlain]
    · simp [Action.runsOn, Action.fallsThrough, Action.targets]

/-- What a block of a method is, whether it receives exceptions aside: its bounds are those of a run
of positions, and its edges are those of its last statement and those for exceptions. -/
structure IsBlock (m : Method) (k : Nat) (b : Block) : Prop where
  id : b.id = k
  start : (leaders m.actions)[k]? = some b.start
  stop : b.stop = ((leaders m.actions)[k + 1]?).getD m.order.size
  normal : ∀ goal, (∃ e ∈ b.succs, e.block = goal ∧ e.cond ≠ ("E" : Text)) ↔
    ∃ j, blockOf (leaders m.actions) j = goal ∧ m.Proceeds (b.stop - 1) j
  thrown : ∀ goal, (∃ e ∈ b.succs, e.block = goal ∧ e.cond = ("E" : Text)) ↔
    ∃ i j, b.start ≤ i ∧ i < b.stop ∧ j ∈ (Flow.ofMethod m).exSuccsOf i ∧
      blockOf (leaders m.actions) j = goal

theorem exists_block_of_lastEdges {starts : List Nat} {k start stop : Nat}
    {edges : List (Nat × Text)}
    (found : lastEdges m m.order.size stop ((Flow.ofMethod m).action (stop - 1)) = .ok edges) :
    ∃ b, m.block (Flow.ofMethod m) starts k start stop = .ok b ∧ b.id = k ∧ b.start = start ∧
      b.stop = stop ∧ ∀ e, e ∈ b.succs ↔
        (∃ edge ∈ edges, ⟨blockOf starts edge.1, edge.2⟩ = e) ∨
        ∃ i j, start ≤ i ∧ i < stop ∧ j ∈ (Flow.ofMethod m).exSuccsOf i ∧
          ⟨blockOf starts j, "E"⟩ = e := by
  simp only [Method.block, Flow.size_ofMethod, found, Outcome.ok_bind]
  refine ⟨_, rfl, rfl, rfl, rfl, fun e => ?_⟩
  rw [mem_foldl_addNew]
  simp only [not_mem_nil, false_or, mem_map, mem_append, or_and_right, exists_or,
    mem_flatMap, mem_range'_1]
  refine or_congr_right ?_
  constructor
  · rintro ⟨edge, ⟨i, ⟨low, high⟩, j, listed, rfl⟩, rfl⟩
    exact ⟨i, j, low, by omega, listed, rfl⟩
  · rintro ⟨i, j, low, high, listed, rfl⟩
    exact ⟨_, ⟨i, ⟨low, by omega⟩, j, listed, rfl⟩, rfl⟩

theorem action_mem {position : Nat} (inside : position < m.order.size) :
    (Flow.ofMethod m).action position ∈ m.actions := by
  rw [← m.length_actions] at inside
  rw [Flow.action_ofMethod, getElem?_eq_getElem inside, Option.getD_some]
  exact getElem_mem inside

theorem bounds_of_leaders {k start : Nat} (here : (leaders m.actions)[k]? = some start) :
    start < ((leaders m.actions)[k + 1]?).getD m.order.size ∧
      ((leaders m.actions)[k + 1]?).getD m.order.size ≤ m.order.size := by
  cases next : (leaders m.actions)[k + 1]? with
  | none =>
    have inside := lt_of_mem_leaders (mem_of_getElem? here)
    exact ⟨m.length_actions ▸ inside, Nat.le_refl _⟩
  | some stop =>
    have inside := lt_of_mem_leaders (mem_of_getElem? next)
    obtain ⟨bound, rfl⟩ := List.getElem?_eq_some_iff.mp here
    obtain ⟨more, rfl⟩ := List.getElem?_eq_some_iff.mp next
    have ascends := pairwise_iff_getElem.mp (sorted_leaders m.actions)
    exact ⟨ascends k (k + 1) bound more (Nat.lt_succ_self k),
      Nat.le_of_lt (m.length_actions ▸ inside)⟩

theorem exists_isBlock (placed : ∀ a ∈ m.actions, ∀ l ∈ a.targets, (m.positionOf? l).isSome = true)
    (keyed : ∀ a ∈ m.actions, a.hasKeys = true) {k start : Nat}
    (here : (leaders m.actions)[k]? = some start) :
    ∃ b, m.block (Flow.ofMethod m) (leaders m.actions) k start
      (((leaders m.actions)[k + 1]?).getD m.order.size) = .ok b ∧ m.IsBlock k b := by
  have bounds := bounds_of_leaders here
  generalize ended : ((leaders m.actions)[k + 1]?).getD m.order.size = stop at bounds
  have last : (Flow.ofMethod m).action (stop - 1) ∈ m.actions := action_mem (by omega)
  obtain ⟨edges, found, quiet, places⟩ := exists_lastEdges (placed _ last) (keyed _ last)
  have leads : ∀ j, m.Proceeds (stop - 1) j ↔ j ∈ edges.map Prod.fst := by
    intro j
    rw [Proceeds, Nat.sub_add_cancel (show 1 ≤ stop by omega)]
    exact (places j).symm
  obtain ⟨b, built, id, begins, ends, succs⟩ := exists_block_of_lastEdges found
  refine ⟨b, built, id, by rw [begins, here], ends.trans ended.symm, fun goal => ?_, fun goal => ?_⟩
  · rw [ends]
    simp only [leads, succs]
    constructor
    · rintro ⟨e, ⟨edge, listed, rfl⟩ | ⟨_, _, _, _, _, rfl⟩, rfl, plain⟩
      · exact ⟨edge.1, rfl, mem_map_of_mem listed⟩
      · exact absurd rfl plain
    · rintro ⟨j, rfl, listed⟩
      obtain ⟨⟨_, cond⟩, member, rfl⟩ := mem_map.mp listed
      exact ⟨_, .inl ⟨_, member, rfl⟩, rfl, fun (same : cond = "E") => quiet _ (same ▸ member)⟩
  · rw [begins, ends]
    simp only [succs]
    constructor
    · rintro ⟨e, ⟨⟨j, cond⟩, listed, rfl⟩ | ⟨i, j, low, high, listed, rfl⟩, rfl, thrown⟩
      · exact absurd (thrown ▸ listed) (quiet j)
      · exact ⟨i, j, low, high, listed, rfl⟩
    · rintro ⟨i, j, low, high, listed, rfl⟩
      exact ⟨_, .inr ⟨i, j, low, high, listed, rfl⟩, rfl, rfl⟩

theorem mem_runs {k start stop id : Nat} :
    (((leaders m.actions).zip ((leaders m.actions).tail ++ [m.order.size])).zipIdx)[k]? =
      some ((start, stop), id) ↔ id = k ∧ (leaders m.actions)[k]? = some start ∧
        stop = ((leaders m.actions)[k + 1]?).getD m.order.size := by grind

theorem exists_blockGraph
    (placed : ∀ a ∈ m.actions, ∀ l ∈ a.targets, (m.positionOf? l).isSome = true)
    (keyed : ∀ a ∈ m.actions, a.hasKeys = true) :
    ∃ g, m.blockGraph = .ok g ∧ g.stmts = m.body.map Prod.snd ∧
      g.blocks.length = (leaders m.actions).length ∧
      (∀ (k : Nat) b, g.blocks[k]? = some b → m.IsBlock k b) ∧
      ∀ c ∈ g.blocks, c.isHandler = true ↔
        ∃ b ∈ g.blocks, b.ThrowsTo c := by
  have each : ∀ run ∈
      ((leaders m.actions).zip ((leaders m.actions).tail ++ [m.order.size])).zipIdx, ∃ b,
      m.block (Flow.ofMethod m) (leaders m.actions) run.2 run.1.1 run.1.2 = .ok b := by
    rintro ⟨⟨start, stop⟩, id⟩ member
    obtain ⟨k, found⟩ := mem_iff_getElem?.mp member
    obtain ⟨rfl, here, rfl⟩ := mem_runs.mp found
    obtain ⟨b, made, -⟩ := exists_isBlock placed keyed here
    exact ⟨b, made⟩
  obtain ⟨blocks, built, count, at_⟩ := Outcome.exists_mapM each
  have isBlock : ∀ (k : Nat) b, blocks[k]? = some b → m.IsBlock k b := by
    intro k b found
    obtain ⟨⟨⟨start, stop⟩, id⟩, run, made⟩ := at_ k b found
    obtain ⟨rfl, here, rfl⟩ := mem_runs.mp run
    obtain ⟨b', made', is⟩ := exists_isBlock placed keyed here
    obtain rfl : b = b' := Except.ok.inj (made.symm.trans made')
    exact is
  unfold blockGraph
  simp only [Flow.size_ofMethod, built, Outcome.ok_bind]
  refine ⟨_, rfl, rfl, ?_, ?_, ?_⟩
  · simp only [length_map, count, length_zipIdx, length_zip, length_append,
      length_tail, length_singleton]
    omega
  · intro k b found
    dsimp only at found
    rw [getElem?_map, Option.map_eq_some_iff] at found
    obtain ⟨b', listed, rfl⟩ := found
    have is := isBlock k b' listed
    exact ⟨is.id, is.start, is.stop, is.normal, is.thrown⟩
  · intro c member
    obtain ⟨c', listed, rfl⟩ := mem_map.mp member
    simp only [Block.ThrowsTo, contains_iff_mem, mem_flatMap, mem_map,
      mem_filter, beq_iff_eq]
    constructor
    · rintro ⟨b, known, e, ⟨succ, thrown⟩, goal⟩
      exact ⟨_, ⟨b, known, rfl⟩, e, succ, goal, thrown⟩
    · rintro ⟨_, ⟨b, known, rfl⟩, e, succ, goal, thrown⟩
      exact ⟨b, known, e, ⟨succ, thrown⟩, goal⟩

/-! ## The quotient -/

/-- The table of labels says where the label stands. -/
def Places (m : Method) (l : Label) : Prop :=
  ((m.positionOf? l).bind fun position => m.actions[position]?).bind Action.label? = some l

instance (m : Method) (l : Label) : Decidable (m.Places l) :=
  inferInstanceAs (Decidable (_ = some l))

/-- The step from a switch to the statement behind it, where none of its labels stands. -/
def PassesSwitch (m : Method) (i j : Nat) : Prop :=
  j = i + 1 ∧ ∃ value keys targets default,
    m.actions[i]? = some (.switch value keys targets default) ∧
      ∀ l ∈ default :: targets, m.positionOf? l ≠ some j

end Method

/-- A block graph is the quotient of the statement graph of a method: the blocks partition the
positions, and lead to one another as their statements do. -/
structure BlockGraph.IsQuotient (g : BlockGraph) (m : Method) : Prop where
  stmts : g.stmts = m.body.map Prod.snd
  numbered : ∀ (k : Nat) b, g.blocks[k]? = some b →
    b.id = k ∧ b.start < b.stop ∧ b.stop ≤ m.order.size
  partition : ∀ position < m.order.size, ∃! k : Nat, ∃ b, g.blocks[k]? = some b ∧ b.Holds position
  closed : ∀ b ∈ g.blocks, ∀ e ∈ b.succs, ∃ c ∈ g.blocks, c.id = e.block
  normal : ∀ b ∈ g.blocks, ∀ c ∈ g.blocks, b.GoesTo c ↔
    b.Leaves (fun i j => j ∈ (Flow.ofMethod m).succsOf i ∧ ¬ m.PassesSwitch i j) c
  thrown : ∀ b ∈ g.blocks, ∀ c ∈ g.blocks, b.ThrowsTo c ↔
    b.Leaves (fun i j => j ∈ (Flow.ofMethod m).exSuccsOf i) c
  handlers : ∀ c ∈ g.blocks, c.isHandler = true ↔ ∃ b ∈ g.blocks, b.ThrowsTo c

namespace Method

variable {m : Method} {l : Label} {k i j position : Nat} {b c : Block}

theorem places_iff : m.Places l ↔
    ∃ position, m.positionOf? l = some position ∧ m.actions[position]? = some (.label l) := by
  simp only [Places, Option.bind_eq_some_iff, Action.label?_eq_some]
  constructor
  · rintro ⟨a, ⟨position, found, here⟩, rfl⟩
    exact ⟨position, found, here⟩
  · rintro ⟨position, found, here⟩
    exact ⟨_, ⟨position, found, here⟩, rfl⟩

section

variable (placed : m.Places l) (found : m.positionOf? l = some position)

include placed found

theorem Places.mem_leaders : position ∈ leaders m.actions := by
  obtain ⟨_, found', here⟩ := places_iff.mp placed
  obtain rfl := Option.some.inj (found.symm.trans found')
  exact Ir.mem_leaders.mpr ⟨_, here, .inr (.inl rfl)⟩

theorem Places.lt : position < m.order.size :=
  m.length_actions ▸ lt_of_mem_leaders (placed.mem_leaders found)

end

theorem mem_succsOf (inside : i < m.order.size) : j ∈ (Flow.ofMethod m).succsOf i ↔
    (((Flow.ofMethod m).action i).fallsThrough = true ∧ i + 1 < m.order.size ∧ j = i + 1) ∨
      ∃ l ∈ ((Flow.ofMethod m).action i).targets, m.positionOf? l = some j := by
  rw [← m.length_actions] at inside
  rw [Flow.succsOf_ofMethod, Flow.action_ofMethod, getElem?_eq_getElem inside,
    Option.map_some, Option.getD_some, Option.getD_some, mem_succsAt]

/-- Without the steps past a switch, the normal successors of a position are the next one, where
control runs on to it, and the places of the targets. -/
theorem mem_succsOf_of_not_passesSwitch (inside : i < m.order.size) :
    (j ∈ (Flow.ofMethod m).succsOf i ∧ ¬ m.PassesSwitch i j) ↔
      m.Proceeds i j := by
  have bound := m.length_actions.symm ▸ inside
  have here : m.actions[i]? = some ((Flow.ofMethod m).action i) := by
    rw [Flow.action_ofMethod, getElem?_eq_getElem bound, Option.getD_some]
  rw [mem_succsOf inside, Proceeds]
  generalize (Flow.ofMethod m).action i = a at here
  constructor
  · rintro ⟨⟨falls, next, rfl⟩ | target, notPast⟩
    · by_cases on : a.runsOn = true
      · exact .inl ⟨on, next, rfl⟩
      · obtain ⟨value, keys, targets, default, rfl⟩ := Action.exists_switch falls on
        refine .inr (Classical.byContradiction fun none => notPast
          ⟨rfl, value, keys, targets, default, here, fun l listed place => ?_⟩)
        exact none ⟨l, listed, place⟩
    · exact .inr target
  · rintro (⟨on, next, rfl⟩ | ⟨l, listed, place⟩)
    · refine ⟨.inl ⟨Action.fallsThrough_of_runsOn on, next, rfl⟩, ?_⟩
      rintro ⟨-, value, keys, targets, default, switch, -⟩
      obtain rfl := Option.some.inj (here.symm.trans switch)
      cases on
    · refine ⟨.inr ⟨l, listed, place⟩, ?_⟩
      rintro ⟨-, value, keys, targets, default, switch, apart⟩
      obtain rfl := Option.some.inj (here.symm.trans switch)
      exact apart l listed place

theorem exists_trap_of_mem_exSuccsOf (member : j ∈ (Flow.ofMethod m).exSuccsOf i) :
    ∃ t ∈ m.traps, m.positionOf? t.handler = some j := by
  rw [Flow.exSuccsOf_ofMethod] at member
  cases found : m.actions[i]? with
  | none => simp [found] at member
  | some a =>
    rw [found, Option.map_some, Option.getD_some, mem_exSuccsAt] at member
    obtain ⟨-, _, -, t, listed, goal⟩ := member
    exact ⟨t, mem_of_getElem? listed, goal⟩

namespace IsBlock

variable (is : m.IsBlock k b)

include is

theorem bounds : b.start < b.stop ∧ b.stop ≤ m.order.size := by
  rw [is.stop]
  exact bounds_of_leaders is.start

theorem inRun (holds : b.Holds i) : InRun (leaders m.actions) k i := by
  refine ⟨⟨b.start, is.start, holds.1⟩, fun next found => ?_⟩
  have stop := is.stop
  rw [found, Option.getD_some] at stop
  exact stop ▸ holds.2

theorem holds_iff (inside : i < m.order.size) : b.Holds i ↔ blockOf (leaders m.actions) i = k := by
  constructor
  · intro holds
    exact (is.inRun holds).blockOf_eq (sorted_leaders _)
  · intro block
    obtain ⟨k', run⟩ := exists_inRun_leaders (m.length_actions ▸ inside)
    obtain rfl : k' = k := (run.blockOf_eq (sorted_leaders _)).symm.trans block
    obtain ⟨start, here, low⟩ := run.begins
    obtain rfl := Option.some.inj (here.symm.trans is.start)
    refine ⟨low, ?_⟩
    rw [is.stop]
    cases next : (leaders m.actions)[k' + 1]? with
    | none => exact inside
    | some stop => exact run.ends stop next

theorem not_mem_leaders (before : b.Holds i) (holds : b.Holds (i + 1)) :
    i + 1 ∉ leaders m.actions :=
  (is.inRun holds).not_mem (sorted_leaders _) is.start (Nat.lt_succ_of_le before.1)

theorem targets_eq_nil (before : b.Holds i) (holds : b.Holds (i + 1)) :
    ((Flow.ofMethod m).action i).targets = [] := by
  have inside : i + 1 < m.actions.length := by
    rw [m.length_actions]
    exact Nat.lt_of_lt_of_le holds.2 is.bounds.2
  rw [Flow.action_ofMethod, getElem?_eq_getElem (Nat.lt_of_succ_lt inside), Option.getD_some]
  exact Action.targets_of_endsBlock (endsBlock_of_not_mem inside (is.not_mem_leaders before holds)
    (getElem?_eq_getElem _))

section

variable (placed : ∀ a ∈ m.actions, ∀ l ∈ a.targets, m.Places l)

include placed

theorem lt_of_proceeds (proceeds : m.Proceeds (b.stop - 1) j) : j < m.order.size := by
  obtain ⟨nonempty, inBody⟩ := is.bounds
  rcases proceeds with ⟨-, next, rfl⟩ | ⟨l, listed, place⟩
  · exact next
  · exact (placed _ (action_mem (by omega)) l listed).lt place

theorem exists_goal
    (handled : ∀ t ∈ m.traps, m.Places t.handler) {e : BlockEdge} (member : e ∈ b.succs) :
    ∃ j < m.order.size, blockOf (leaders m.actions) j = e.block := by
  by_cases thrown : e.cond = "E"
  · obtain ⟨i, j, -, -, listed, block⟩ := (is.thrown e.block).mp ⟨e, member, rfl, thrown⟩
    obtain ⟨t, known, goal⟩ := exists_trap_of_mem_exSuccsOf listed
    exact ⟨j, (handled t known).lt goal, block⟩
  · obtain ⟨j, block, proceeds⟩ := (is.normal e.block).mp ⟨e, member, rfl, thrown⟩
    exact ⟨j, is.lt_of_proceeds placed proceeds, block⟩

end

/-- A block goes where the normal edges lead that leave it, but for those past a switch. -/
theorem goesTo_iff {kc : Nat} (isC : m.IsBlock kc c)
    (placed : ∀ a ∈ m.actions, ∀ l ∈ a.targets, m.Places l) :
    b.GoesTo c ↔
      b.Leaves (fun i j => j ∈ (Flow.ofMethod m).succsOf i ∧ ¬ m.PassesSwitch i j) c := by
  obtain ⟨nonempty, inBody⟩ := is.bounds
  have last : b.stop - 1 < m.order.size := by omega
  rw [Block.GoesTo, isC.id, is.normal kc]
  constructor
  · rintro ⟨j, block, proceeds⟩
    have inC := (isC.holds_iff (is.lt_of_proceeds placed proceeds)).mpr block
    refine ⟨b.stop - 1, j, ⟨by omega, by omega⟩, inC,
      (mem_succsOf_of_not_passesSwitch last).mpr proceeds, ?_⟩
    rintro ⟨next, -, before⟩
    omega
  · rintro ⟨i, j, ⟨low, high⟩, inC, edge, leaves⟩
    -- A statement that is not the last one leads only to the next one of the block.
    have atEnd : i = b.stop - 1 := by
      refine Classical.byContradiction fun inner => ?_
      have more : b.Holds (i + 1) := ⟨by omega, by omega⟩
      rcases (mem_succsOf (by omega)).mp edge.1 with ⟨-, -, rfl⟩ | ⟨l, listed, -⟩
      · exact leaves ⟨rfl, more⟩
      · rw [is.targets_eq_nil ⟨low, high⟩ more] at listed
        cases listed
    subst atEnd
    have proceeds := (mem_succsOf_of_not_passesSwitch last).mp edge
    exact ⟨j, (isC.holds_iff (is.lt_of_proceeds placed proceeds)).mp inC, proceeds⟩

theorem throwsTo_iff {kc : Nat} (isC : m.IsBlock kc c)
    (placed : ∀ t ∈ m.traps, m.Places t.handler) :
    b.ThrowsTo c ↔ b.Leaves (fun i j => j ∈ (Flow.ofMethod m).exSuccsOf i) c := by
  rw [Block.ThrowsTo, isC.id, is.thrown kc]
  constructor
  · rintro ⟨i, j, low, high, member, block⟩
    obtain ⟨t, listed, goal⟩ := exists_trap_of_mem_exSuccsOf member
    have handler := placed t listed
    refine ⟨i, j, ⟨low, high⟩, (isC.holds_iff (handler.lt goal)).mpr block, member, ?_⟩
    rintro ⟨rfl, holds⟩
    exact is.not_mem_leaders ⟨low, high⟩ holds (handler.mem_leaders goal)
  · rintro ⟨i, j, ⟨low, high⟩, inC, member, -⟩
    obtain ⟨t, listed, goal⟩ := exists_trap_of_mem_exSuccsOf member
    exact ⟨i, j, low, high, member, (isC.holds_iff ((placed t listed).lt goal)).mp inC⟩

end IsBlock

/-- When the labels that control can go to are placed, the block graph is the quotient of the
statement graph, but for the steps past a switch. -/
theorem blockGraph_isQuotient (m : Method) (placed : ∀ a ∈ m.actions, ∀ l ∈ a.targets, m.Places l)
    (handled : ∀ t ∈ m.traps, m.Places t.handler) (keyed : ∀ a ∈ m.actions, a.hasKeys = true) :
    ∃ g, m.blockGraph = .ok g ∧ g.IsQuotient m := by
  obtain ⟨g, built, stmts, count, isBlock, handlers⟩ := exists_blockGraph (m := m) (fun a member l
    listed => by
      obtain ⟨position, found, -⟩ := places_iff.mp (placed a member l listed)
      rw [found]
      rfl) keyed
  -- The block of a position, by its number.
  have blockAt : ∀ i < m.order.size, ∃ b,
      g.blocks[blockOf (leaders m.actions) i]? = some b ∧ b.Holds i := by
    intro i inside
    obtain ⟨k, run⟩ := exists_inRun_leaders (m.length_actions ▸ inside)
    obtain ⟨start, here, -⟩ := run.begins
    have bound := count ▸ (lt_of_get here)
    obtain rfl := run.blockOf_eq (sorted_leaders _)
    exact ⟨_, getElem?_eq_getElem bound,
      ((isBlock _ _ (getElem?_eq_getElem bound)).holds_iff inside).mpr rfl⟩
  refine ⟨g, built, stmts, fun k b found => ?_, fun i inside => ?_, fun b member e succ => ?_,
    fun b member c other => ?_, fun b member c other => ?_, handlers⟩
  · exact ⟨(isBlock k b found).id, (isBlock k b found).bounds⟩
  · obtain ⟨b, found, holds⟩ := blockAt i inside
    refine ⟨_, ⟨b, found, holds⟩, ?_⟩
    rintro k ⟨b', found', holds'⟩
    exact (((isBlock k b' found').holds_iff inside).mp holds').symm
  · obtain ⟨k, found⟩ := mem_iff_getElem?.mp member
    obtain ⟨j, inside, block⟩ := (isBlock k b found).exists_goal placed handled succ
    obtain ⟨c, there, -⟩ := blockAt j inside
    rw [block] at there
    exact ⟨c, mem_of_getElem? there, (isBlock _ c there).id⟩
  · obtain ⟨k, found⟩ := mem_iff_getElem?.mp member
    obtain ⟨kc, there⟩ := mem_iff_getElem?.mp other
    exact (isBlock k b found).goesTo_iff (isBlock kc c there) placed
  · obtain ⟨k, found⟩ := mem_iff_getElem?.mp member
    obtain ⟨kc, there⟩ := mem_iff_getElem?.mp other
    exact (isBlock k b found).throwsTo_iff (isBlock kc c there) handled

/-- A method with a trap and a switch that always goes past the statement behind it. -/
def skipping : Method :=
  { owner := "La;", name := "m", desc := "()V", access := ⟨8⟩, params := [], result := "V"
    locals := #[{ type := .int }, { type := .object }]
    traps := [⟨.number 1, .number 2, .number 3, ∅⟩]
    stmts := #[⟨.assign 0 (.ofInt 1), none⟩, ⟨.label (.number 1), none⟩,
      ⟨.void (.node (.invoke .static ⟨"La;", "f", ⟨[], "V"⟩⟩) []), none⟩,
      ⟨.label (.number 2), none⟩, ⟨.switch (.read 0) [1] [.number 0] (.number 0), none⟩,
      ⟨.return none, none⟩, ⟨.label (.number 0), none⟩, ⟨.return none, none⟩,
      ⟨.label (.number 3), none⟩, ⟨.identity 1 (.leaf (.caught .object ∅)), none⟩,
      ⟨.goto (.number 0), none⟩]
    order := #[0, 1, 2, 3, 4, 5, 6, 7, 8, 9, 10]
    placed := #[some 6, some 1, some 3, some 8] }

/-- The blocks of the method are the quotient of its statement graph but for the step from the
switch to the statement behind it. -/
theorem blockGraph_isQuotient_skipping : ∃ g, skipping.blockGraph = .ok g ∧ g.IsQuotient skipping :=
  blockGraph_isQuotient skipping (by with_unfolding_all decide) (by with_unfolding_all decide) (by decide)

/-- The switch has an edge to the statement behind it in the statement graph, and its block has none
to the block of that statement. -/
theorem blocks_skipping : (Flow.ofMethod skipping).succsOf 4 = [5, 6] ∧
    (skipping.blockGraph.toOption.map fun g => g.blocks.map fun b =>
      (b.start, b.stop, b.succs.map BlockEdge.block)) =
        some [(0, 1, [1]), (1, 3, [2, 5]), (3, 5, [4, 4]), (5, 6, []), (6, 8, []),
          (8, 11, [4])] := by
  with_unfolding_all decide

end Method

end Ir

end DexLift
