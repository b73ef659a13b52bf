import DexLift.Proofs.Ir.Reaching

/-!
# What follows a statement

Labels do nothing, so an edge to a label leads to the first statement behind it
that is none. Read this way, the statement graph has an edge for every normal
successor and, in the order of the table, one for every trap that takes what the
statement throws. The statements visited along these edges are those that paths
through the graph lead to.
-/

namespace DexLift.Ir.Method

open List Ir.Flow

/-! ## Edges between statements that are no labels -/

def landing (m : Method) (position : Nat) : Option StmtId :=
  (m.order.toList.drop position).find? fun id => !(m.action id).isLabel

/-- Control can go from a statement to another without an exception, labels passed over. -/
def Follows (m : Method) (id next : StmtId) : Prop :=
  ∃ position target, m.order.toList[position]? = some id ∧
    target ∈ (Flow.ofMethod m).succsOf position ∧ m.landing target = some next

/-- What takes the exceptions of a statement, in the order of the table: the types, and the
statements the handlers begin with. -/
def dispatch (m : Method) (id : StmtId) : List (Text × Option StmtId) :=
  match m.order.toList.idxOf? id with
  | none => []
  | some position => ((Flow.ofMethod m).handlers position).filterMap fun i =>
      (m.traps[i]?).map fun t => (t.type, (m.positionOf? t.handler).bind m.landing)

/-- A statement of the body that a path from the entry leads to. -/
def Live (m : Method) (id : StmtId) : Prop :=
  ∃ position, m.order.toList[position]? = some id ∧
    (Flow.ofMethod m).isReachable position = true

/-- What is visited from the entry, labels passed over. -/
inductive Visits (m : Method) : StmtId → Prop where
  | entry {id : StmtId} (first : m.landing 0 = some id) : Visits m id
  | next {id next : StmtId} (visited : Visits m id) (edge : m.Follows id next) : Visits m next
  | caught {id next : StmtId} {type : Text} (visited : Visits m id)
      (edge : (type, some next) ∈ m.dispatch id) : Visits m next

variable {m : Method} {position : Nat} {id next : StmtId} {a : Action}

/-! ## Positions of statements -/

theorem getElem?_actions (found : m.order.toList[position]? = some id) :
    m.actions[position]? = some (m.action id) := by
  rw [actions, getElem?_map, found, Option.map_some]

theorem exists_order (found : m.actions[position]? = some a) :
    ∃ id, m.order.toList[position]? = some id ∧ m.action id = a := by
  rwa [actions, getElem?_map, Option.map_eq_some_iff] at found

section

variable (tidy : m.Tidy) (here : m.order.toList[position]? = some id)

include tidy here

theorem Tidy.order_unique {other : Nat} (there : m.order.toList[other]? = some id) :
    position = other :=
  (getElem?_inj (lt_of_get here) tidy.nodup).mp (here.trans there.symm)

theorem Tidy.idxOf?_eq : m.order.toList.idxOf? id = some position := by
  obtain ⟨inside, same⟩ := List.getElem?_eq_some_iff.mp here
  rw [idxOf?_eq_some_iff]
  refine ⟨inside, same, ?_⟩
  intro other early again
  have there : m.order.toList[other]? = some id := by
    rw [getElem?_eq_getElem (Nat.lt_trans early inside), again]
  exact absurd (tidy.order_unique there here) (Nat.ne_of_lt early)

end

/-! ## Landing -/

theorem landing_of_plain (here : m.order.toList[position]? = some id)
    (plain : (m.action id).isLabel = false) : m.landing position = some id := by
  obtain ⟨inside, same⟩ := List.getElem?_eq_some_iff.mp here
  rw [landing, drop_eq_getElem_cons inside, same, find?_cons_of_pos (by simp [plain])]

theorem landing_of_label (here : m.order.toList[position]? = some id)
    (label : (m.action id).isLabel = true) : m.landing position = m.landing (position + 1) := by
  obtain ⟨inside, same⟩ := List.getElem?_eq_some_iff.mp here
  rw [landing, landing, drop_eq_getElem_cons inside, same,
    find?_cons_of_neg (by simp [label])]

theorem landing_of_labels {other : Nat} (le : position ≤ other)
    (labels : ∀ i id, position ≤ i → i < other → m.order.toList[i]? = some id →
      (m.action id).isLabel = true) : m.landing position = m.landing other := by
  obtain ⟨count, rfl⟩ := Nat.exists_eq_add_of_le le
  clear le
  induction count with
  | zero => rfl
  | succ count ih =>
    rw [ih fun i id low high => labels i id low (by omega)]
    cases here : m.order.toList[position + count]? with
    | some id =>
      exact landing_of_label here (labels _ id (by omega) (by omega) here)
    | none =>
      have behind : m.order.toList.length ≤ position + count := getElem?_eq_none_iff.mp here
      rw [landing, landing, drop_of_length_le behind, drop_of_length_le (by omega)]

theorem exists_of_landing (lands : m.landing position = some id) :
    ∃ place, position ≤ place ∧ m.order.toList[place]? = some id ∧
      (m.action id).isLabel = false ∧
      ∀ i other, position ≤ i → i < place → m.order.toList[i]? = some other →
        (m.action other).isLabel = true := by
  obtain ⟨plain, offset, inside, here, early⟩ := find?_eq_some_iff_getElem.mp lands
  rw [getElem_drop] at here
  rw [length_drop] at inside
  refine ⟨position + offset, Nat.le_add_right .., ?_, by simpa using plain, ?_⟩
  · rw [getElem?_eq_getElem (by omega), here]
  · intro i other low high found
    obtain ⟨more, rfl⟩ := Nat.exists_eq_add_of_le low
    have label := early more (by omega)
    rw [getElem_drop] at label
    obtain ⟨_, same⟩ := List.getElem?_eq_some_iff.mp found
    simpa [same] using label

/-! ## Successors and handlers in a tidy body -/

theorem Tidy.follows_iff (tidy : m.Tidy) (here : m.order.toList[position]? = some id) :
    m.Follows id next ↔
      ((m.action id).fallsThrough = true ∧ m.landing (position + 1) = some next) ∨
        ∃ l ∈ (m.action id).targets, ∃ target, m.find? l = some target ∧
          m.landing target = some next := by
  have found := getElem?_actions here
  constructor
  · rintro ⟨place, target, there, edge, lands⟩
    obtain rfl := tidy.order_unique here there
    obtain ⟨a, same, way⟩ := tidy.mem_succsOf.mp edge
    obtain rfl := Option.some.inj (found.symm.trans same)
    rcases way with ⟨falls, -, rfl⟩ | ⟨l, listed, goal⟩
    · exact .inl ⟨falls, lands⟩
    · exact .inr ⟨l, listed, target, goal, lands⟩
  · rintro (⟨falls, lands⟩ | ⟨l, listed, target, goal, lands⟩)
    · obtain ⟨place, le, there, -⟩ := exists_of_landing lands
      have bound := lt_of_get there
      refine ⟨position, position + 1, here, tidy.mem_succsOf.mpr ⟨_, found, .inl ⟨falls, ?_, rfl⟩⟩,
        lands⟩
      simp only [length_actions, Array.length_toList] at bound ⊢
      omega
    · exact ⟨position, target, here, tidy.mem_succsOf.mpr ⟨_, found, .inr ⟨l, listed, goal⟩⟩, lands⟩

theorem coversOf_ofMethod (inside : position < m.order.size) :
    (ofMethod m).coversOf position = m.coversAt position := by
  simp [coversOf, ofMethod, body, inside]

/-- The traps that cover a position, in the order of the table. -/
def caughtAt (m : Method) (position : Nat) : List Trap := m.traps.filter (m.covered · position)

theorem Tidy.filterMap_coversAt {β : Type} (tidy : m.Tidy) (position : Nat) (read : Trap → β) :
    (m.coversAt position).filterMap (fun i => (m.traps[i]?).map read) =
      (m.caughtAt position).map read := by
  have unfolded : m.coversAt position =
      (m.traps.zipIdx.filter fun entry => m.covered entry.1 position).map Prod.snd := by
    refine congrArg (map Prod.snd) (filter_congr fun entry _ => ?_)
    obtain ⟨t, i⟩ := entry
    simp only [tidy.positionOf?_eq_find?]
    rfl
  have listed : ∀ (traps : List Trap) (k : Nat), (∀ i, traps[i]? = m.traps[k + i]?) →
      ((traps.zipIdx k).filter fun entry => m.covered entry.1 position).filterMap
        (fun entry => (m.traps[entry.2]?).map read) =
      (traps.filter (m.covered · position)).map read := by
    intro traps
    induction traps with
    | nil => simp
    | cons t traps ih =>
      intro k same
      have later := ih (k + 1) (by
        intro i
        have shifted := same (i + 1)
        rw [getElem?_cons_succ] at shifted
        rw [shifted]
        congr 1
        omega)
      have first : m.traps[k]? = some t := (same 0).symm
      rw [zipIdx_cons, filter_cons, filter_cons]
      dsimp only
      split
      · rw [filterMap_cons, first, Option.map_some, map_cons, later]
      · exact later
  rw [unfolded, filterMap_map]
  exact listed m.traps 0 (by simp)

theorem Tidy.dispatch_eq (tidy : m.Tidy) (here : m.order.toList[position]? = some id) :
    m.dispatch id = if (m.action id).canThrow = true then
      (m.caughtAt position).map fun t => (t.type, (m.find? t.handler).bind m.landing) else [] := by
  have found := getElem?_actions here
  unfold dispatch
  rw [tidy.idxOf?_eq here]
  dsimp only
  rw [handlers, action_ofMethod, found, Option.getD_some]
  split
  · rw [coversOf_ofMethod (by simpa using (lt_of_get found)), tidy.filterMap_coversAt]
    simp only [tidy.positionOf?_eq_find?]
  · rfl

/-! ## Visited statements -/

theorem Tidy.lt_of_find? (tidy : m.Tidy) {l : Label} (found : m.find? l = some position) :
    position < m.actions.length :=
  (List.getElem?_eq_some_iff.mp (tidy.find?_eq_some.mp found)).1

theorem Tidy.reaches_landing (tidy : m.Tidy) (reached : (ofMethod m).Reaches position)
    (lands : m.landing position = some id) :
    ∃ place, m.order.toList[place]? = some id ∧ (ofMethod m).Reaches place := by
  obtain ⟨place, le, here, -, labels⟩ := exists_of_landing lands
  refine ⟨place, here, ?_⟩
  obtain ⟨count, rfl⟩ := Nat.exists_eq_add_of_le le
  have bound := lt_of_get here
  clear here lands le
  induction count with
  | zero => exact reached
  | succ count ih =>
    have before := ih
      (fun i other low high => labels i other low (by omega)) (by omega)
    have inside : position + count < m.order.toList.length := by omega
    have there := getElem?_eq_getElem inside
    have label := labels _ _ (by omega) (by omega) there
    refine before.edge (.inl (tidy.mem_succsOf.mpr
      ⟨_, getElem?_actions there, .inl ⟨?_, ?_, rfl⟩⟩)) ?_
    · cases action : m.action m.order.toList[position + count] with
      | label => rfl
      | _ =>
        rw [action] at label
        cases label
    · simp only [length_actions, Array.length_toList] at bound ⊢
      omega
    · simp only [size_ofMethod, Array.length_toList] at bound ⊢
      omega

theorem Tidy.visits_iff (tidy : m.Tidy) (plain : (m.action id).isLabel = false) :
    m.Visits id ↔ m.Live id := by
  have start : ∀ {first}, m.landing 0 = some first → 0 < (ofMethod m).size := by
    intro first lands
    obtain ⟨place, -, here, -⟩ := exists_of_landing lands
    have bound := lt_of_get here
    simp only [size_ofMethod, Array.length_toList] at bound ⊢
    omega
  constructor
  · intro visited
    suffices reached : ∃ place, m.order.toList[place]? = some id ∧
        (ofMethod m).Reaches place by
      obtain ⟨place, here, reaches⟩ := reached
      exact ⟨place, here, isReachable_iff.mpr reaches⟩
    clear plain
    induction visited with
    | entry first => exact tidy.reaches_landing (.start (start first)) first
    | next _ edge ih =>
      obtain ⟨place, here, reaches⟩ := ih
      obtain ⟨other, target, there, succ, lands⟩ := edge
      obtain rfl := tidy.order_unique here there
      refine tidy.reaches_landing (reaches.edge (.inl succ) ?_) lands
      obtain ⟨goal, le, at_, -⟩ := exists_of_landing lands
      have bound := lt_of_get at_
      simp only [size_ofMethod, Array.length_toList] at bound ⊢
      omega
    | caught _ edge ih =>
      obtain ⟨place, here, reaches⟩ := ih
      rw [tidy.dispatch_eq here] at edge
      split at edge
      next throws =>
        obtain ⟨t, listed, same⟩ := mem_map.mp edge
        obtain ⟨member, covered⟩ := mem_filter.mp listed
        obtain ⟨target, goal, lands⟩ := Option.bind_eq_some_iff.mp (congrArg Prod.snd same)
        refine tidy.reaches_landing (reaches.edge (.inr (tidy.mem_exSuccsOf.mpr
          ⟨_, getElem?_actions here, throws, t, member, covered, goal⟩)) ?_) lands
        simpa using tidy.lt_of_find? goal
      · cases edge
  · rintro ⟨place, here, live⟩
    -- Every position reached lands on something visited.
    suffices visited : ∀ {position}, (ofMethod m).Reaches position →
        ∀ id, m.landing position = some id → m.Visits id from
      visited (isReachable_iff.mp live) id (landing_of_plain here plain)
    intro position reached
    induction reached with
    | start => exact fun id first => .entry first
    | @edge position next _ edge inside ih =>
      intro id lands
      have found : ∃ a, m.actions[position]? = some a := by
        rcases edge with normal | thrown
        · obtain ⟨a, found, -⟩ := tidy.mem_succsOf.mp normal
          exact ⟨a, found⟩
        · obtain ⟨a, found, -⟩ := tidy.mem_exSuccsOf.mp thrown
          exact ⟨a, found⟩
      obtain ⟨a, found⟩ := found
      obtain ⟨source, at_, rfl⟩ := exists_order found
      cases label : (m.action source).isLabel with
      | false =>
        have before := ih source (landing_of_plain at_ label)
        rcases edge with normal | thrown
        · exact before.next ⟨position, next, at_, normal, lands⟩
        · obtain ⟨a, same, throws, t, member, covered, goal⟩ := tidy.mem_exSuccsOf.mp thrown
          obtain rfl := Option.some.inj (found.symm.trans same)
          have taken : (t.type, some id) ∈ m.dispatch source := by
            rw [tidy.dispatch_eq at_, if_pos throws]
            refine mem_map.mpr ⟨t, mem_filter.mpr ⟨member, covered⟩, ?_⟩
            rw [goal, Option.bind_some, lands]
          exact before.caught taken
      | true =>
        obtain ⟨l, isLabel⟩ := Option.isSome_iff_exists.mp label
        rw [Action.label?_eq_some] at isLabel
        rw [isLabel] at found
        refine ih id ?_
        rw [landing_of_label at_ label, ← lands]
        congr 1
        rcases edge with normal | thrown
        · obtain ⟨a, same, ⟨-, -, rfl⟩ | ⟨l, listed, -⟩⟩ := tidy.mem_succsOf.mp normal
          · rfl
          · obtain rfl := Option.some.inj (found.symm.trans same)
            cases listed
        · obtain ⟨a, same, throws, -⟩ := tidy.mem_exSuccsOf.mp thrown
          obtain rfl := Option.some.inj (found.symm.trans same)
          cases throws

/-! ## Methods with the same flow -/

/-- What follows the statements that can be reached, and what takes their exceptions, is the same in
both methods. -/
structure SameFlow (m n : Method) : Prop where
  entry : n.landing 0 = m.landing 0
  follows : ∀ id, m.Live id → (m.action id).isLabel = false →
    ∀ next, n.Follows id next ↔ m.Follows id next
  dispatch : ∀ id, m.Live id → (m.action id).isLabel = false → n.dispatch id = m.dispatch id

theorem Visits.plain (visited : m.Visits id) : (m.action id).isLabel = false := by
  have landed : ∀ {position id}, m.landing position = some id → (m.action id).isLabel = false := by
    intro position id lands
    obtain ⟨-, -, -, plain, -⟩ := exists_of_landing lands
    exact plain
  cases visited with
  | entry first => exact landed first
  | next _ edge =>
    obtain ⟨-, target, -, -, lands⟩ := edge
    exact landed lands
  | caught _ edge =>
    unfold dispatch at edge
    split at edge
    · cases edge
    · obtain ⟨i, -, read⟩ := mem_filterMap.mp edge
      obtain ⟨t, -, same⟩ := Option.map_eq_some_iff.mp read
      obtain ⟨target, -, lands⟩ := Option.bind_eq_some_iff.mp (congrArg Prod.snd same)
      exact landed lands

theorem visits_congr (tidy : m.Tidy) {n : Method} (entry : n.landing 0 = m.landing 0)
    (follows : ∀ id, m.Live id → (m.action id).isLabel = false →
      ∀ next, n.Follows id next ↔ m.Follows id next)
    (dispatch : ∀ id, m.Live id → (m.action id).isLabel = false →
      ∀ next, (∃ type, (type, some next) ∈ n.dispatch id) ↔
        ∃ type, (type, some next) ∈ m.dispatch id) : n.Visits id ↔ m.Visits id := by
  constructor
  · intro visited
    induction visited with
    | entry first => exact .entry (entry ▸ first)
    | next _ edge ih =>
      have plain := ih.plain
      have live := (tidy.visits_iff plain).mp ih
      exact ih.next ((follows _ live plain _).mp edge)
    | caught _ edge ih =>
      have plain := ih.plain
      have live := (tidy.visits_iff plain).mp ih
      obtain ⟨type, edge'⟩ := (dispatch _ live plain _).mp ⟨_, edge⟩
      exact ih.caught edge'
  · intro visited
    induction visited with
    | entry first => exact .entry (entry ▸ first)
    | next before edge ih =>
      have live := (tidy.visits_iff before.plain).mp before
      exact ih.next ((follows _ live before.plain _).mpr edge)
    | caught before edge ih =>
      have live := (tidy.visits_iff before.plain).mp before
      obtain ⟨type, edge'⟩ := (dispatch _ live before.plain _).mpr ⟨_, edge⟩
      exact ih.caught edge'

theorem SameFlow.visits (tidy : m.Tidy) {n : Method} (same : m.SameFlow n) :
    n.Visits id ↔ m.Visits id :=
  visits_congr tidy same.entry same.follows fun id live plain next => by
    rw [same.dispatch id live plain]

end DexLift.Ir.Method
