import DexLift.Proofs.Ir.Rewriting
import DexLift.Simplify.Constants

/-!
# Bodies with zeros put in

Behind statements that define a zero, further locals are set to zero, and what reads the first one
may read one of the others instead. The statements of the body stand where they stood, but for what
was put in: control goes to the same labels, traps cover the same statements, and blocks have the
same names. So the longer body makes a step for each step of the shorter one, and passes over what
was put in behind it.
-/

namespace DexLift.Ir

open List State Ir.Action

/-! ## Lists with elements put in -/

variable {V : Type} {x : LocalId} {e id : StmtId} {ids : List StmtId}

section Spread

variable {α : Type} {more : α → List α} {xs : List α} {x : α} {position other : Nat}

/-- A list with further elements behind each element. -/
def spread (more : α → List α) (xs : List α) : List α := xs.flatMap fun x => x :: more x

/-- Where the element of a position stands then. -/
def place (more : α → List α) (xs : List α) (position : Nat) : Nat :=
  (spread more (xs.take position)).length

theorem drop_place (more : α → List α) (xs : List α) (position : Nat) :
    (spread more xs).drop (place more xs position) = spread more (xs.drop position) := by
  have split : spread more xs = spread more (xs.take position) ++ spread more (xs.drop position) := by
    rw [spread, spread, spread, ← flatMap_append, take_append_drop]
  rw [place, split, drop_left]

section

variable (found : xs[position]? = some x)

include found

theorem drop_place_cons :
    (spread more xs).drop (place more xs position) =
      x :: (more x ++ spread more (xs.drop (position + 1))) := by
  obtain ⟨inside, same⟩ := List.getElem?_eq_some_iff.mp found
  rw [drop_place, drop_eq_getElem_cons inside, same]
  rfl

theorem getElem?_place : (spread more xs)[place more xs position]? = some x := by
  rw [← head?_drop, drop_place_cons found, head?_cons]

theorem place_succ :
    place more xs (position + 1) = place more xs position + 1 + (more x).length := by
  rw [place, place, take_add_one, found]
  simp only [spread, Option.toList_some, flatMap_append, length_append,
    flatMap_singleton, length_cons]
  omega

end

theorem getElem?_place_of_length_le (outside : xs.length ≤ position) :
    (spread more xs)[place more xs position]? = none := by
  rw [place, take_of_length_le outside]
  exact getElem?_eq_none le_rfl

theorem place_mono (le : position ≤ other) : place more xs position ≤ place more xs other := by
  obtain ⟨further, rfl⟩ := Nat.exists_eq_add_of_le le
  rw [place, place, take_add, spread, spread, flatMap_append, length_append]
  exact Nat.le_add_right ..

theorem place_lt_iff (inside : position < xs.length) :
    place more xs position < place more xs other ↔ position < other := by
  have step : place more xs (position + 1) = _ := place_succ (getElem?_eq_getElem inside)
  constructor
  · intro less
    by_contra le
    have back : place more xs other ≤ place more xs position := place_mono (Nat.le_of_not_lt le)
    omega
  · intro less
    have on : place more xs (position + 1) ≤ place more xs other := place_mono less
    omega

end Spread

/-! ## Locals that are set -/

def Action.setsZero (a : Action) (l : LocalId) : Prop := ∃ kind, a = .assign l (zeroOf { kind })

theorem isZero_zeroOf (kind : Kind) : (zeroOf { kind }).isZero = true := by
  unfold zeroOf
  split <;> rfl

theorem zeroOf_eq_leaf (kind : Kind) : ∃ head, zeroOf { kind } = .leaf head ∧
    head.isLeaf = false ∧ head.throws = false := by
  unfold zeroOf
  split <;> exact ⟨_, rfl, rfl, rfl⟩

def World.HasZero {V : Type} (w : World V) (null : V) : Prop :=
  ∀ head operands, (Expr.leaf head).isZero = true → w.value head operands = null

variable {w : World V}

theorem evaluate_zeroOf {null : V} (zeros : w.HasZero null) (env : Env V) (caught : Option V)
    (history : History V) (kind : Kind) :
    evaluate w env caught history (zeroOf { kind }) = some (history, .ok null) := by
  obtain ⟨head, same, inner, quiet⟩ := zeroOf_eq_leaf kind
  have zero := isZero_zeroOf kind
  rw [same] at zero ⊢
  rw [Expr.leaf, evaluate_inner inner, evaluateAll, andThen_ok, World.compute,
    if_neg (by simp [quiet]), zeros head [] zero]

theorem Method.InSsa.evaluate_isZero {null : V} {m : Method} (inSsa : m.InSsa)
    (zeros : w.HasZero null) {value : Expr} (listed : .assign x value ∈ m.actions)
    (zero : value.isZero = true) (env : Env V) (caught : Option V) (history : History V) :
    evaluate w env caught history value = some (history, .ok null) := by
  obtain ⟨head, args⟩ := value
  cases head with
  | const type constant =>
    obtain rfl := inSsa.constants x type constant args listed
    rw [evaluate_inner rfl, evaluateAll, andThen_ok, World.compute, if_neg (by simp [Head.throws]),
      zeros _ _ zero]
  | _ => cases zero

namespace Method

/-- One method is another with statements put in that set further locals to zero. Each local that
fills in for another one is set behind the definition of that one, which is zero. -/
structure Supplies (m n : Method) (more : StmtId → List StmtId)
    (fills : LocalId → LocalId → Prop) : Prop where
  tidy : n.Tidy
  traps : n.traps = m.traps
  order : n.order.toList = spread more m.order.toList
  form : ∀ id ∈ m.order.toList, (m.action id).SameForm (n.action id)
  joins : ∀ id ∈ m.order.toList, (m.action id).isPhi = true → n.action id = m.action id
  behind : ∀ id ∈ m.order.toList, more id ≠ [] → ∃ x value, m.action id = .assign x value
  sets : ∀ id ∈ m.order.toList, ∀ e ∈ more id, ∃ l, m.locals.size ≤ l ∧ (n.action e).setsZero l
  filled : ∀ x y, fills x y → m.locals.size ≤ y ∧
    ∀ id ∈ m.order.toList, (m.action id).defines? = some x →
      (∃ value, m.action id = .assign x value ∧ value.isZero = true) ∧
        ∃ e ∈ more id, (n.action e).setsZero y

namespace Supplies

variable {m n : Method} {more : StmtId → List StmtId} {fills : LocalId → LocalId → Prop}
  (supplies : m.Supplies n more fills) {position : Nat} {id : StmtId} {l : Label}

include supplies

/-! ## Positions -/

theorem from_place (here : m.order.toList[position]? = some id) :
    n.From (place more m.order.toList position) (n.action id :: ((more id).map n.action ++
      (spread more (m.order.toList.drop (position + 1))).map n.action)) := by
  rw [From, actions, ← map_drop, supplies.order, drop_place_cons here, map_cons, map_append]

theorem getElem?_place (here : m.order.toList[position]? = some id) :
    n.actions[place more m.order.toList position]? = some (n.action id) :=
  (supplies.from_place here).get

theorem plain_of_more (listed : id ∈ m.order.toList) (member : e ∈ more id) :
    (n.action e).label? = none ∧ (n.action e).isPhi = false ∧ (n.action e).targets = [] ∧
      (n.action e).endsBlock = false := by
  obtain ⟨l, -, kind, same⟩ := supplies.sets id listed e member
  rw [same]
  exact ⟨rfl, rfl, rfl, rfl⟩

theorem mem_order (member : e ∈ n.order.toList) :
    e ∈ m.order.toList ∨ ∃ id ∈ m.order.toList, e ∈ more id := by
  rw [supplies.order, spread, mem_flatMap] at member
  obtain ⟨id, listed, here⟩ := member
  rcases mem_cons.mp here with rfl | later
  · exact .inl listed
  · exact .inr ⟨id, listed, later⟩

theorem mem_of_mem (listed : id ∈ m.order.toList) : id ∈ n.order.toList := by
  rw [supplies.order, spread, mem_flatMap]
  exact ⟨id, listed, mem_cons_self⟩

theorem find?_eq (tidy : m.Tidy) (l : Label) :
    n.find? l = (m.find? l).map (place more m.order.toList) := by
  cases found : m.find? l with
  | some position =>
    obtain ⟨id, here, label⟩ := exists_order (tidy.find?_eq_some.mp found)
    have form := supplies.form id (mem_of_getElem? here)
    refine supplies.tidy.find?_eq_some.mpr ?_
    rw [supplies.getElem?_place here, Option.some.injEq, ← label?_eq_some, form.label, label]
    rfl
  | none =>
    refine Option.eq_none_iff_forall_ne_some.mpr fun index there => ?_
    obtain ⟨id, here, label⟩ := exists_order (supplies.tidy.find?_eq_some.mp there)
    rcases supplies.mem_order (mem_of_getElem? here) with listed | ⟨own, listed, member⟩
    · obtain ⟨position, at_⟩ := mem_iff_getElem?.mp listed
      have same := (supplies.form id listed).label
      rw [label] at same
      have before := tidy.find?_eq_some.mpr ((getElem?_actions at_).trans
        (congrArg some (label?_eq_some.mp same.symm)))
      rw [found] at before
      cases before
    · have plain := (supplies.plain_of_more listed member).1
      rw [label] at plain
      cases plain

theorem trapFor?_eq (tidy : m.Tidy) (w : World V) (x : V)
    (here : m.order.toList[position]? = some id) :
    n.trapFor? w x (place more m.order.toList position) = m.trapFor? w x position := by
  have inside := lt_of_get here
  have covers : ∀ t, n.covered t (place more m.order.toList position) = m.covered t position := by
    intro t
    unfold covered
    rw [supplies.find?_eq tidy, supplies.find?_eq tidy]
    cases start : m.find? t.start with
    | none => rfl
    | some first =>
      cases stop : m.find? t.stop with
      | none => rfl
      | some last =>
        have bound : first < m.order.toList.length := by
          simpa using tidy.lt_of_find? start
        simp only [Option.map_some, place_lt_iff bound, place_lt_iff inside]
  unfold trapFor?
  simp only [supplies.traps, covers]

/-! ## Blocks -/

theorem opens_eq : n.opens = m.opens := by
  have labels : n.phiLabels = m.phiLabels := by
    have steps : ∀ ids : List StmtId, (∀ id ∈ ids, id ∈ m.order.toList) →
        ∀ state, ((spread more ids).map n.action).foldl phiStep state =
          (ids.map m.action).foldl phiStep state := by
      intro ids
      induction ids with
      | nil => exact fun _ _ => rfl
      | cons id rest ih =>
        intro listed state
        have here := listed id mem_cons_self
        have form := supplies.form id here
        have same : phiStep state (n.action id) = phiStep state (m.action id) := by
          cases joins : (m.action id).isPhi with
          | true => rw [supplies.joins id here joins]
          | false =>
            cases label : (m.action id).label? with
            | some l =>
              rw [label?_eq_some.mp label, label?_eq_some.mp (form.label.trans label)]
            | none =>
              have before := phiStep_plain [m.action id] state (by simp [label, joins])
              have after := phiStep_plain [n.action id] state
                (by simp [form.label.trans label, form.isPhi.trans joins])
              exact after.trans before.symm
        rw [spread, flatMap_cons, cons_append, map_cons, map_append,
          foldl_cons, foldl_append, phiStep_plain ((more id).map n.action), map_cons,
          foldl_cons, same]
        · exact ih (fun other later => listed other (.tail _ later)) _
        · intro a member
          obtain ⟨e, inside, rfl⟩ := mem_map.mp member
          obtain ⟨plain, single, -, -⟩ := supplies.plain_of_more here inside
          exact ⟨plain, single⟩
    rw [Method.phiLabels, Method.phiLabels, actions, actions, supplies.order,
      steps _ (fun _ member => member)]
  funext l
  refine Bool.eq_iff_iff.mpr ?_
  rw [opens_iff, opens_iff, labels, supplies.traps]
  refine or_congr_left ⟨?_, ?_⟩
  · rintro ⟨a, member, named⟩
    obtain ⟨id, listed, rfl⟩ := mem_map.mp member
    rcases supplies.mem_order listed with own | ⟨other, inside, member⟩
    · refine ⟨_, mem_map_of_mem own, ?_⟩
      have form := supplies.form id own
      rwa [form.targets, form.preds] at named
    · obtain ⟨-, single, none, -⟩ := supplies.plain_of_more inside member
      obtain ⟨y, -, kind, same⟩ := supplies.sets other inside id member
      rw [same] at named
      rcases named with target | pred
      · cases target
      · cases pred
  · rintro ⟨a, member, named⟩
    obtain ⟨id, listed, rfl⟩ := mem_map.mp member
    have form := supplies.form id listed
    exact ⟨_, mem_map_of_mem (supplies.mem_of_mem listed), by rwa [form.targets, form.preds]⟩

theorem passAll_more (listed : id ∈ m.order.toList) (sub : ids ⊆ more id) {opens : Label → Bool}
    {s : Standing} (settled : s.ended = true → s = ⟨.nowhere, true⟩) :
    Standing.passAll opens (ids.map n.action) s = s := by
  induction ids with
  | nil => rfl
  | cons e rest ih =>
    obtain ⟨plain, -, -, goesOn⟩ := supplies.plain_of_more listed (sub mem_cons_self)
    have same : s.pass opens (n.action e) = s := by
      rw [pass_of_plain _ plain, goesOn]
      split
      next ended => exact (settled ended).symm
      next open_ => rw [← Bool.eq_false_iff.mpr open_]
    rw [map_cons, Standing.passAll, foldl_cons, same]
    exact ih (subset_of_cons_subset sub)

theorem standing_place (le : position ≤ m.order.toList.length) :
    n.standing (place more m.order.toList position) = m.standing position := by
  induction position with
  | zero => rfl
  | succ position ih =>
    have here := getElem?_eq_getElem (Nat.lt_of_succ_le le)
    have listed := mem_of_getElem? here
    have behind := supplies.from_place here
    have before := ih (Nat.le_of_succ_le le)
    have taken : n.actions.take (place more m.order.toList (position + 1)) =
        n.actions.take (place more m.order.toList position) ++
          n.action m.order.toList[position] :: (more m.order.toList[position]).map n.action := by
      rw [place_succ here, Nat.add_assoc, take_add, behind, Nat.add_comm 1,
        take_succ_cons, take_left' (by simp)]
    rw [standing, taken, Standing.passAll, foldl_append, foldl_cons,
      standing_succ (getElem?_actions here), ← before, ← supplies.opens_eq,
      ← (supplies.form _ listed).pass]
    show Standing.passAll n.opens _ (Standing.pass n.opens (n.standing _) _) = _
    by_cases empty : more m.order.toList[position] = []
    · rw [empty]
      rfl
    · refine supplies.passAll_more listed (List.Subset.refl _) ?_
      obtain ⟨x, value, action⟩ := supplies.behind _ listed empty
      have form := supplies.form _ listed
      rw [action] at form
      rw [pass_of_plain _ form.label, form.ends]
      split
      · exact fun _ => rfl
      · intro contrary
        cases contrary

theorem blockAt_place (here : m.order.toList[position]? = some id) :
    n.blockAt (place more m.order.toList position) = m.blockAt position := by
  have inside := lt_of_get here
  rw [blockAt_eq_standing, blockAt_eq_standing, standing_succ (supplies.getElem?_place here),
    standing_succ (getElem?_actions here), supplies.standing_place (le_of_lt inside),
    supplies.opens_eq, (supplies.form id (mem_of_getElem? here)).pass]

theorem enters_place (position : Nat) :
    n.enters (place more m.order.toList position) = m.enters position := by
  cases here : m.order.toList[position]? with
  | some id =>
    have form := supplies.form id (mem_of_getElem? here)
    cases label : (m.action id).label? with
    | some l =>
      have first := getElem?_actions here
      have second := supplies.getElem?_place here
      rw [label?_eq_some.mp label] at first
      rw [label?_eq_some.mp (form.label.trans label)] at second
      simp only [enters, first, second, supplies.opens_eq]
    | none =>
      rw [enters_of_plain (getElem?_actions here) label,
        enters_of_plain (supplies.getElem?_place here) (form.label.trans label)]
  | none =>
    have outside := getElem?_eq_none_iff.mp here
    have first : m.actions[position]? = none := by
      rw [actions, getElem?_map, here]
      rfl
    have second : n.actions[place more m.order.toList position]? = none := by
      rw [actions, getElem?_map, supplies.order, getElem?_place_of_length_le outside]
      rfl
    simp only [enters, first, second]

end Supplies

end Method

/-! ## Values -/

section Runs

variable {V : Type} {w : World V} {null : V} {m n : Method} {more : StmtId → List StmtId}
  {fills : LocalId → LocalId → Prop}

/-- What is set in the shorter body's run is set to the same in that of the longer one, and where a
local is set that others fill in for, all are zero. -/
structure Env.Supplied (null : V) (m : Method) (fills : LocalId → LocalId → Prop)
    (env other : Env V) : Prop where
  known : ∀ x v, env x = some v → x < m.locals.size
  same : ∀ x v, env x = some v → other x = some v
  filled : ∀ x y v, fills x y → env x = some v → v = null ∧ other y = some null

variable {env other after : Env V}

section

variable (supplied : Env.Supplied null m fills env other)

include supplied

theorem Env.Supplied.set
    (apart : ∀ x y, fills x y → m.locals.size ≤ y) {v : V} (inside : x < m.locals.size)
    (sets : ∀ y, after y = other.set x v y ∨ m.locals.size ≤ y ∧ after y = some null)
    (covers : ∀ y, fills x y → v = null ∧ after y = some null) :
    Env.Supplied null m fills (env.set x v) after where
  known := by
    intro z u set
    by_cases own : z = x
    · exact own ▸ inside
    · exact supplied.known z u ((if_neg own).symm.trans set)
  same := by
    intro z u set
    have bound : z < m.locals.size := by
      by_cases own : z = x
      · exact own ▸ inside
      · exact supplied.known z u ((if_neg own).symm.trans set)
    rcases sets z with here | ⟨far, -⟩
    · rw [here]
      by_cases own : z = x
      · rw [Env.set, if_pos own] at set ⊢
        exact set
      · rw [Env.set, if_neg own] at set ⊢
        exact supplied.same z u set
    · exact absurd bound (Nat.not_lt.mpr far)
  filled := by
    intro z y u fill set
    by_cases own : z = x
    · subst own
      obtain ⟨zero, here⟩ := covers y fill
      rw [Env.set, if_pos rfl] at set
      exact ⟨(Option.some.inj set).symm.trans zero, here⟩
    · rw [Env.set, if_neg own] at set
      obtain ⟨zero, there⟩ := supplied.filled z y u fill set
      refine ⟨zero, ?_⟩
      rcases sets y with here | ⟨-, here⟩
      · have other_ : y ≠ x := by
          rintro rfl
          exact absurd inside (Nat.not_lt.mpr (apart z y fill))
        rw [here, Env.set, if_neg other_, there]
      · exact here

theorem Env.Supplied.extend
    (sets : ∀ y, after y = other y ∨ m.locals.size ≤ y ∧ after y = some null) :
    Env.Supplied null m fills env after where
  known := supplied.known
  same := by
    intro x v set
    rcases sets x with here | ⟨far, -⟩
    · exact here.trans (supplied.same x v set)
    · exact absurd (supplied.known x v set) (Nat.not_lt.mpr far)
  filled := by
    intro x y v fill set
    obtain ⟨zero, there⟩ := supplied.filled x y v fill set
    rcases sets y with here | ⟨-, here⟩
    · exact ⟨zero, here.trans there⟩
    · exact ⟨zero, here⟩

theorem Env.Supplied.undefined
    {target : Option LocalId} {v : Option V} (same : env.define target v = env) :
    Env.Supplied null m fills (env.define target v) (other.define target v) := by
  have kept : other.define target v = other := by
    cases target with
    | none => rfl
    | some x =>
      cases v with
      | none => rfl
      | some u =>
        have set : env x = some u := (congrFun same x).symm.trans (if_pos rfl)
        funext y
        show (if y = x then some u else other y) = other y
        split
        next own => rw [own, supplied.same x u set]
        · rfl
  rwa [same, kept]

end

/-- Two states that have come to the same statement: the same requests have been made, and what is
set is set to the same. -/
structure State.Supplied (null : V) (m n : Method) (more : StmtId → List StmtId)
    (fills : LocalId → LocalId → Prop) (s t : State V) : Prop where
  position : t.position = place more m.order.toList s.position
  env : Env.Supplied null m fills s.env t.env
  origin : t.origin = s.origin
  entering : ∀ x v, s.entering x = some v → t.entering x = some v
  caught : t.caught = s.caught
  history : t.history = s.history

section Passing

variable (supplies : m.Supplies n more fills)

include supplies

theorem State.Supplied.goTo {s t : State V} (related : s.Supplied null m n more fills t)
    (supplied : Env.Supplied null m fills env other) {position : Nat}
    (block : n.blockAt position = m.blockAt s.position) (history : History V) (caught : Option V)
    (next : Nat) (exceptional : Bool) :
    (({ s with history, env, caught } : State V).goTo m next exceptional).Supplied null m n more fills
      (({ t with position, history, env := other, caught } : State V).goTo n
        (place more m.order.toList next) exceptional) where
  position := by rw [goTo_position, goTo_position]
  env := by rwa [goTo_env, goTo_env]
  origin := by
    rw [goTo_origin, goTo_origin, supplies.enters_place, block, related.origin]
  entering := by
    rw [goTo_entering, goTo_entering, supplies.enters_place]
    split
    · exact supplied.same
    · exact related.entering
  caught := by rw [goTo_caught, goTo_caught]
  history := by rw [goTo_history, goTo_history]

theorem Method.Supplies.through (zeros : w.HasZero null) {own : StmtId}
    (listed : own ∈ m.order.toList) (sub : ids ⊆ more own) {rest : List Action} {u : State V}
    (here : n.From (u.position + 1) (ids.map n.action ++ rest))
    (uncaught : ids ≠ [] → u.caught = none) :
    ∃ env : Env V, Leads w n ids.length (.running (u.goTo n (u.position + 1) false))
        (.running (({ u with position := u.position + ids.length, env } : State V).goTo n
          (u.position + 1 + ids.length) false)) ∧
      (∀ y, env y = u.env y ∨ m.locals.size ≤ y ∧ env y = some null) ∧
      ∀ e ∈ ids, ∀ y, (n.action e).setsZero y → env y = some null := by
  induction ids generalizing u with
  | nil => exact ⟨u.env, .refl _, fun _ => .inl rfl, fun _ none => nomatch none⟩
  | cons e rest_ ih =>
    obtain ⟨l, far, kind, action⟩ := supplies.sets own listed e (sub mem_cons_self)
    have found : n.actions[u.position + 1]? = some (.assign l (zeroOf { kind })) := by
      rw [map_cons, action] at here
      exact here.get
    let at_ : State V := { u with position := u.position + 1 }
    let set : State V := { at_ with env := u.env.set l null, caught := none }
    have arrives : u.goTo n (u.position + 1) false = at_ := u.goTo_of_plain found rfl
    have step : at_.step w n = .running (set.goTo n (u.position + 1 + 1) false) := by
      have done : (assign l (zeroOf { kind })).carryOut w u.env u.caught u.history =
          some (u.history, u.env.set l null, .next) := by
        unfold carryOut
        have value : evaluateAll w u.env u.caught u.history
            (assign l (zeroOf { kind })).inputs = some (u.history, .ok [null]) := by
          show evaluateAll w _ _ _ [zeroOf { kind }] = _
          rw [evaluateAll_single, evaluate_zeroOf zeros]
          rfl
        rw [value]
        rfl
      exact step_of_carryOut (s := at_) found rfl done
    obtain ⟨env, leads, sets, zero⟩ :=
      ih (subset_of_cons_subset sub) (u := set) here.next fun _ => rfl
    have kept : env l = some null := by
      rcases sets l with same | ⟨-, same⟩
      · exact same.trans (if_pos rfl)
      · exact same
    refine ⟨env, ?_, fun y => ?_, fun other member y own => ?_⟩
    · rw [arrives, uncaught nofun, length_cons, Nat.add_comm rest_.length,
        ← Nat.add_assoc u.position, ← Nat.add_assoc (u.position + 1)]
      exact (Leads.one step).trans leads
    · rcases sets y with same | same
      · by_cases written : y = l
        · exact .inr ⟨written ▸ far, written ▸ kept⟩
        · exact .inl (same.trans (if_neg written))
      · exact .inr same
    · rcases mem_cons.mp member with rfl | later
      · obtain ⟨kind', same⟩ := own
        obtain ⟨rfl, -⟩ := assign.inj (action.symm.trans same)
        exact kept
      · exact zero other later y own

end Passing

/-- What a statement has become evaluates its operands to the same, and does the same with them. -/
def Method.SameWork (w : World V) (null : V) (m n : Method) (fills : LocalId → LocalId → Prop) :
    Prop :=
  ∀ id ∈ m.order.toList, (m.action id).isPhi = false →
    (∀ env other caught history r, Env.Supplied null m fills env other →
      evaluateAll w env caught history (m.action id).inputs = some r →
      evaluateAll w other caught history (n.action id).inputs = some r) ∧
    ∀ history values, (n.action id).conclude w history values =
      (m.action id).conclude w history values

section Step

variable (supplies : m.Supplies n more fills)

include supplies

theorem Method.Supplies.null_of_fills (inSsa : m.InSsa) (zeros : w.HasZero null)
    (listed : id ∈ m.order.toList) {y : LocalId} (defines : (m.action id).defines? = some x)
    (fill : fills x y) {caught : Option V} {history last : History V} {move : Move V} {v : V}
    (done : (m.action id).carryOut w env caught history = some (last, after, move))
    (set : after x = some v) : v = null := by
  obtain ⟨⟨value, action, zero⟩, -⟩ := (supplies.filled x y fill).2 id listed defines
  have found : m.action id ∈ m.actions := mem_map_of_mem listed
  rw [action] at found done
  have evaluated : evaluateAll w env caught history (assign x value).inputs =
      some (history, .ok [null]) := by
    show evaluateAll w _ _ _ [value] = _
    rw [evaluateAll_single, inSsa.evaluate_isZero zeros found zero]
    rfl
  unfold carryOut at done
  rw [evaluated] at done
  cases done
  have own : (env.set x null) x = some v := set
  rw [Env.set, if_pos rfl] at own
  exact (Option.some.inj own).symm

theorem State.Supplied.goesOn (zeros : w.HasZero null) {s t : State V}
    (related : s.Supplied null m n more fills t) (here : m.order.toList[s.position]? = some id)
    (env other : Env V) (history : History V) (caught : Option V)
    (uncaught : more id ≠ [] → caught = none)
    (supplied : ∀ final : Env V,
      (∀ y, final y = other y ∨ m.locals.size ≤ y ∧ final y = some null) →
      (∀ e ∈ more id, ∀ y, (n.action e).setsZero y → final y = some null) →
      Env.Supplied null m fills env final) :
    ∃ status, Leads w n (more id).length (.running (({ t with
          history, env := other, caught } : State V).goTo n (t.position + 1) false)) status ∧
      Beside (Supplied null m n more fills) (.running (({ s with
          history, env, caught } : State V).goTo m (s.position + 1) false)) status := by
  have inside := lt_of_get here
  have succ : place more m.order.toList (s.position + 1) = _ := place_succ here
  rw [← related.position] at succ
  obtain ⟨final, leads, sets, zero⟩ := supplies.through (u := { t with
      history, env := other, caught }) zeros (mem_of_getElem? here) (Subset.refl _) (by
    show n.From (t.position + 1) _
    rw [related.position]
    exact (supplies.from_place here).next) uncaught
  refine ⟨_, leads, .running ?_⟩
  show State.Supplied null m n more fills _ (State.goTo n _ (t.position + 1 + _) false)
  rw [← succ]
  refine related.goTo supplies (supplied _ sets zero) ?_ history caught _ _
  have next : t.position + (more id).length + 1 = place more m.order.toList (s.position + 1) := by
    rw [succ]
    omega
  rw [Method.blockAt_eq_standing, Method.blockAt_eq_standing, next, supplies.standing_place inside]

section

variable (inSsa : m.InSsa) (zeros : w.HasZero null) (works : Method.SameWork w null m n fills)

include inSsa zeros works

theorem State.Supplied.step {s t : State V}
    (related : s.Supplied null m n more fills t) :
    ∃ count status, Leads w n (count + 1) (.running t) status ∧
      Beside (Supplied null m n more fills) (s.step w m) status := by
  by_cases unstuck : s.step w m = .stuck
  · exact ⟨0, _, .one rfl, unstuck ▸ .stuck _⟩
  cases here : m.order.toList[s.position]? with
  | none =>
    refine absurd ?_ unstuck
    unfold State.step
    rw [Method.actions, getElem?_map, here]
    rfl
  | some id =>
    have found := Method.getElem?_actions (m := m) here
    have listed := mem_of_getElem? here
    have form := supplies.form id listed
    have there := supplies.getElem?_place here
    rw [← related.position] at there
    have apart : ∀ x y, fills x y → m.locals.size ≤ y := fun x y fill => (supplies.filled x y fill).1
    cases single : (m.action id).isPhi with
    | true =>
      have none : more id = [] := by
        by_contra some
        obtain ⟨x, value, action⟩ := supplies.behind id listed some
        rw [action] at single
        cases single
      rw [supplies.joins id listed single] at there
      cases action : m.action id with
      | phi target args =>
        rw [action] at found there
        obtain ⟨arg, v, picks, value, step⟩ := step_eq_of_phi found unstuck
        have stepThere := step_phi w (s := t) (v := v) there (by
          rw [incoming, related.origin]
          exact Option.bind_eq_some_iff.mpr ⟨arg, picks, related.entering _ _ value⟩)
        obtain ⟨status, leads, beside⟩ := related.goesOn supplies zeros here
          (s.env.set target v) (t.env.set target v) s.history s.caught
          (fun some => absurd none some) fun final sets _ =>
            related.env.set apart (inSsa.known _ (mem_of_getElem? found) target rfl) sets
              fun y fill => by
                obtain ⟨⟨zero, same, -⟩, -⟩ := (supplies.filled target y fill).2 id listed (by
                  rw [action]
                  rfl)
                rw [action] at same
                cases same
        rw [← related.history, ← related.caught] at leads
        refine ⟨(more id).length, status, ?_, step ▸ beside⟩
        rw [Nat.add_comm]
        exact (Leads.one stepThere).trans leads
      | _ =>
        rw [action] at single
        cases single
    | false =>
      obtain ⟨history, env, move, done, step⟩ := step_eq_of_plain found single unstuck
      obtain ⟨evaluates, concludes⟩ := works id listed single
      have sameValues : ∀ r, evaluateAll w s.env s.caught s.history (m.action id).inputs = some r →
          evaluateAll w t.env t.caught t.history (n.action id).inputs = some r := by
        intro r values
        rw [related.history, related.caught]
        exact evaluates _ _ _ _ _ related.env values
      obtain ⟨v, rfl, doneThere, gives⟩ :=
        carryOut_transfer single done sameValues concludes form.defines
      have stepThere := step_of_carryOut there (form.isPhi.trans single) doneThere
      have sameLabel : (n.action id).isLabel = (m.action id).isLabel := by
        rw [isLabel, isLabel, form.label]
      rw [sameLabel, related.caught] at stepThere
      have block : n.blockAt t.position = m.blockAt s.position := by
        rw [related.position, supplies.blockAt_place here]
      cases move with
      | next =>
        obtain ⟨status, leads, beside⟩ := related.goesOn supplies zeros here
          (s.env.define (m.action id).defines? v) (t.env.define (m.action id).defines? v) history
          (if (m.action id).isLabel then s.caught else none)
          (fun some => by
            obtain ⟨x, value, action⟩ := supplies.behind id listed some
            rw [action]
            rfl)
          fun final sets zero => by
            have defined := gives rfl
            cases defines : (m.action id).defines? with
            | none =>
              rw [defines] at sets
              exact related.env.extend sets
            | some x =>
              obtain ⟨u, rfl⟩ := Option.isSome_iff_exists.mp (defined x defines)
              rw [defines] at sets done
              refine related.env.set apart (inSsa.known _ (mem_map_of_mem listed) x defines) sets
                fun y fill => ⟨supplies.null_of_fills inSsa zeros listed defines fill done
                  (if_pos rfl), ?_⟩
              obtain ⟨-, e, member, own⟩ := (supplies.filled x y fill).2 id listed defines
              exact zero e member y own
        refine ⟨(more id).length, status, ?_, step ▸ beside⟩
        rw [Nat.add_comm]
        exact (Leads.one stepThere).trans leads
      | jump l =>
        obtain ⟨-, same, none⟩ := carryOut_jump done
        refine ⟨0, _, .one stepThere, ?_⟩
        rw [step]
        simp only [follow, supplies.find?_eq inSsa.tidy]
        cases goal : m.find? l with
        | none => exact .stuck _
        | some next =>
          rw [none]
          exact .running (related.goTo supplies related.env block history _ next false)
      | finish v =>
        refine ⟨0, _, .one stepThere, ?_⟩
        rw [step]
        exact .returned v history
      | raise x =>
        obtain ⟨-, same⟩ := inSsa.proper.canThrow_of_raise (mem_map_of_mem listed) done
        refine ⟨0, _, .one stepThere, ?_⟩
        rw [step]
        have trap : n.trapFor? w x t.position = m.trapFor? w x s.position := by
          rw [related.position, supplies.trapFor?_eq inSsa.tidy w x here]
        simp only [follow, trap, supplies.find?_eq inSsa.tidy]
        cases takes : m.trapFor? w x s.position with
        | none => exact .uncaught x history
        | some trap =>
          dsimp only
          cases goal : m.find? trap.handler with
          | none => exact .stuck _
          | some next =>
            exact .running (related.goTo supplies (related.env.undefined same) block history (some x)
              next true)

theorem Method.Supplies.beside :
    ∃ pace : Nat → Nat, StrictMono pace ∧
      ∀ k, Beside (Supplied null m n more fills) (m.run w k) (n.run w (pace k)) := by
  have onward : ∀ k done, Beside (Supplied null m n more fills) (m.run w k) (n.run w done) →
      ∃ later, done < later ∧
        Beside (Supplied null m n more fills) (m.run w (k + 1)) (n.run w later) := by
    intro k done here
    have next : m.run w (k + 1) = (m.run w k).step w m := rfl
    have one : n.run w (done + 1) = (n.run w done).step w n := rfl
    generalize reached : m.run w k = a at here
    generalize reachedThere : n.run w done = b at here
    rw [reached] at next
    rw [reachedThere] at one
    cases here with
    | running related =>
      obtain ⟨count, status, leads, beside⟩ := related.step supplies inSsa zeros works
      refine ⟨done + (count + 1), by omega, ?_⟩
      rwa [next, leads.run reachedThere]
    | returned v history =>
      refine ⟨done + 1, Nat.lt_succ_self _, ?_⟩
      rw [next, one]
      exact .returned v history
    | uncaught x history =>
      refine ⟨done + 1, Nat.lt_succ_self _, ?_⟩
      rw [next, one]
      exact .uncaught x history
    | stuck =>
      refine ⟨done + 1, Nat.lt_succ_self _, ?_⟩
      rw [next]
      exact .stuck _
  have start : Beside (Supplied null m n more fills) (m.run w 0) (n.run w 0) :=
    .running ⟨rfl, ⟨nofun, nofun, nofun⟩, rfl, nofun, rfl, rfl⟩
  choose next less there using onward
  let pace (k : Nat) :
      { done // Beside (Supplied null m n more fills) (m.run w k) (n.run w done) } :=
    Nat.rec ⟨0, start⟩ (fun k done => ⟨next k done.1 done.2, there k done.1 done.2⟩) k
  exact ⟨fun k => (pace k).1, strictMono_nat_of_lt_succ fun k => less k _ (pace k).2,
    fun k => (pace k).2⟩

end

end Step

end Runs

end DexLift.Ir
