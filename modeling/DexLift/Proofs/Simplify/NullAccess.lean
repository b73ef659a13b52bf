import DexLift.Proofs.Simplify.NullFaults

/-!
# Throwing instead of reaching through null

A statement that reaches through a constant null is replaced by the throw of the exception. Both
runs keep step: they stand at the same position and hold the same values, and the requests that got
to the world are the same. What follows a replaced statement in its block is never entered there, so
that its block may have another name; and a label that only a replaced branch went to opens a block
no longer. No join can tell, since a join knows the blocks that it is entered from by name.
-/

namespace DexLift.Ir

open List State Ir.Action Method

/-! ## The new body -/

/-- What becomes of a statement. -/
def Action.faulting (a : Action) : Action := if a.reachesNull then .throw newNullPointer else a

section Faulting

variable (a : Action)

theorem Action.plain_of_reachesNull {a : Action} (reaches : a.reachesNull = true) :
    a.label? = none ∧ a.isPhi = false := by
  cases a with
  | label | phi => cases reaches
  | _ => exact ⟨rfl, rfl⟩

@[simp] theorem Action.label?_faulting : a.faulting.label? = a.label? := by
  unfold faulting
  split
  next reaches => exact (plain_of_reachesNull reaches).1.symm
  · rfl

@[simp] theorem Action.isPhi_faulting : a.faulting.isPhi = a.isPhi := by
  unfold faulting
  split
  next reaches => exact (plain_of_reachesNull reaches).2.symm
  · rfl

theorem Action.faulting_of_not_reachesNull {a : Action} (other : a.reachesNull = false) :
    a.faulting = a := if_neg (by simp [other])

end Faulting

namespace Method

variable {m n : Method}

/-- One method is another with throws in the place of what reaches through null. -/
structure Faults (m n : Method) : Prop where
  actions : n.actions = m.actions.map Action.faulting
  traps : n.traps = m.traps

theorem Tidy.replaceFrom {k : Method} (tidy : k.Tidy) (front : List StmtId) {rest : List StmtId}
    (split : k.order.toList = front ++ rest) (same : ∀ id ∈ rest, k.stmt id = m.stmt id) :
    let found := (rest.map fun id => (id, m.stmt id)).filter fun s => s.2.action.reachesNull
    let result := found.foldl (fun m (id, s) =>
      let (fresh, m) := m.newStmt { action := .throw newNullPointer, line := s.line }
      m.replace id fresh) k
    result.Tidy ∧ result.traps = k.traps ∧
      result.actions = front.map k.action ++ rest.map fun id => (m.action id).faulting := by
  induction rest generalizing k front with
  | nil =>
    refine ⟨tidy, rfl, ?_⟩
    show k.order.toList.map k.action = _
    rw [split, append_nil, map_nil, append_nil]
  | cons id rest ih =>
    have stays := same id mem_cons_self
    have later : ∀ other ∈ rest, k.stmt other = m.stmt other := fun other listed =>
      same other (.tail _ listed)
    rw [map_cons, filter_cons]
    split
    next reaches =>
      have kept : ∀ other ∈ k.order.toList, ∀ s, (k.newStmt s).2.stmt other = k.stmt other := by
        intro other listed s
        simp [stmt, Method.newStmt, Array.getElem?_push, Nat.ne_of_lt (tidy.made other listed)]
      have apart : k.stmts.size ∉ k.order.toList := fun listed =>
        absurd (tidy.made _ listed) (lt_irrefl _)
      let s : Stmt := { action := .throw newNullPointer, line := (m.stmt id).line }
      have relinked := (tidy.newStmt s).replace split apart (by simp)
        (by rw [action_newStmt_self]; rfl)
      have sameStmt : ∀ other, ((k.newStmt s).2.replace id k.stmts.size).stmt other =
          (k.newStmt s).2.stmt other := by
        intro other
        rw [stmt, stmt, relinked.stmts]
      have inside : ∀ other ∈ front ++ rest, other ∈ k.order.toList := by grind
      obtain ⟨tidy', traps, result⟩ := ih relinked.tidy
        (front ++ [k.stmts.size]) (by simp [relinked.order_eq]) fun other listed => by
          rw [sameStmt, kept other (inside other (mem_append_right _ listed)), later other listed]
      refine ⟨tidy', traps.trans relinked.traps, result.trans ?_⟩
      have old : front.map ((k.newStmt s).2.replace id k.stmts.size).action =
          front.map k.action := by
        refine map_congr_left fun other listed => ?_
        rw [action, sameStmt, kept other (inside other (mem_append_left _ listed))]
        rfl
      have new : ((k.newStmt s).2.replace id k.stmts.size).action k.stmts.size =
          (m.action id).faulting := by
        have faulting : (m.action id).faulting = .throw newNullPointer := if_pos reaches
        rw [action, sameStmt, faulting]
        exact action_newStmt_self k s
      rw [map_append, map_singleton, old, new, append_assoc, map_cons]
      rfl
    next other =>
      obtain ⟨tidy', traps, result⟩ := ih tidy (front ++ [id]) (by simp [split]) later
      refine ⟨tidy', traps, result.trans ?_⟩
      have keeps : k.action id = (m.action id).faulting := by
        have plain : (m.action id).reachesNull = false := Bool.eq_false_iff.mpr other
        rw [faulting_of_not_reachesNull plain, action, stays]
        rfl
      rw [map_append, map_singleton, keeps, append_assoc, map_cons]
      rfl

theorem Tidy.faults_replaceNullAccess (tidy : m.Tidy) : m.Faults m.replaceNullAccess.1 := by
  obtain ⟨-, traps, actions⟩ := tidy.replaceFrom (m := m) [] rfl fun _ _ => rfl
  refine ⟨actions.trans ?_, traps⟩
  rw [map_nil, nil_append, Method.actions, map_map]
  rfl

/-! ## Positions and blocks -/

namespace Faults

variable (faults : m.Faults n) {position : Nat} {a : Action} {l : Label}

include faults

theorem getElem?_actions (found : m.actions[position]? = some a) :
    n.actions[position]? = some a.faulting := by
  rw [faults.actions, getElem?_map, found, Option.map_some]

theorem exists_action {b : Action} (found : n.actions[position]? = some b) :
    ∃ a, m.actions[position]? = some a ∧ b = a.faulting := by
  rw [faults.actions, getElem?_map, Option.map_eq_some_iff] at found
  obtain ⟨a, here, rfl⟩ := found
  exact ⟨a, here, rfl⟩

theorem find?_eq (l : Label) : n.find? l = m.find? l := by
  unfold find?
  rw [faults.actions, findIdx?_map]
  simp only [Function.comp_def, label?_faulting]

theorem trapFor?_eq {V : Type} (w : World V) (x : V) (position : Nat) :
    n.trapFor? w x position = m.trapFor? w x position := by
  unfold trapFor? covered
  simp only [faults.traps, faults.find?_eq]

theorem lastLabel_eq (position : Nat) : n.lastLabel position = m.lastLabel position := by
  unfold lastLabel
  rw [faults.actions, ← map_take, foldl_map]
  simp only [label?_faulting]

theorem opens_of_target (opens : n.opens l = true) : m.opens l = true := by
  rw [opens_iff] at opens ⊢
  rcases opens with ⟨b, member, named⟩ | ⟨t, listed, handler⟩ | joins
  · obtain ⟨position, found⟩ := mem_iff_getElem?.mp member
    obtain ⟨a, here, rfl⟩ := faults.exists_action found
    refine .inl ⟨a, mem_of_getElem? here, ?_⟩
    unfold faulting at named
    split at named
    · rcases named with target | pred
      · cases target
      · cases pred
    · exact named
  · exact .inr (.inl ⟨t, faults.traps ▸ listed, handler⟩)
  · obtain ⟨named, position, target, args, found, last⟩ := mem_phiLabels.mp joins
    obtain ⟨a, here, same⟩ := faults.exists_action found
    have single : a.isPhi = true := by
      rw [← isPhi_faulting, ← same]
      rfl
    cases a with
    | phi target args =>
      exact .inr (.inr (mem_phiLabels.mpr
        ⟨named, position, target, args, here, (faults.lastLabel_eq position).symm.trans last⟩))
    | _ => cases single

theorem opens_of_stays (found : m.actions[position]? = some a) (stays : a.reachesNull = false)
    (named : l ∈ a.targets ∨ l ∈ a.phiArgs.map PhiArg.pred) : n.opens l = true := by
  refine opens_iff.mpr (.inl ⟨a, ?_, named⟩)
  have there := faults.getElem?_actions found
  rw [faulting_of_not_reachesNull stays] at there
  exact mem_of_getElem? there

theorem enters_iff (l : Label) (found : m.actions[position]? = some (.label l)) :
    (n.enters position = true ↔ n.opens l = true) ∧ (m.enters position = true ↔ m.opens l = true) := by
  have there : n.actions[position]? = some (.label l) := faults.getElem?_actions found
  simp [enters, found, there]

theorem enters_of_plain (plain : ∀ l, m.actions[position]? ≠ some (.label l)) :
    n.enters position = false ∧ m.enters position = false := by
  have labels : ∀ l, n.actions[position]? ≠ some (.label l) := by
    intro l there
    obtain ⟨a, here, same⟩ := faults.exists_action there
    have label : a.label? = some l := by rw [← label?_faulting, ← same]; rfl
    exact plain l (here.trans (congrArg some (label?_eq_some.mp label)))
  constructor
  · unfold enters
    split
    next l found => exact absurd found (labels l)
    · rfl
  · unfold enters
    split
    next l found => exact absurd found (plain l)
    · rfl

end Faults

/-- A place is in the same block of both bodies, if that block has a name and is opened still. -/
def SameBlock (m n : Method) (position : Nat) : Prop :=
  (m.standing position).block ≠ .nowhere → n.opens (m.standing position).block = true →
    n.standing position = m.standing position

/-- A run that comes to a position comes from the same block in both bodies, or a block begins there.
-/
def Enterable (m n : Method) (position : Nat) : Prop :=
  (∃ l, m.actions[position]? = some (.label l) ∧ n.opens l = true) ∨ SameBlock m n position

section Enterable

variable (faults : m.Faults n) {position : Nat} {a : Action}

include faults

section

variable (enterable : m.Enterable n position) (found : m.actions[position]? = some a)

include enterable found

theorem Enterable.pass (stays : a.reachesNull = false) : m.SameBlock n (position + 1) := by
  have there := faults.getElem?_actions found
  rw [faulting_of_not_reachesNull stays] at there
  unfold SameBlock
  rw [standing_succ found, standing_succ there]
  cases label : a.label? with
  | none =>
    have same : m.SameBlock n position := by
      refine enterable.resolve_left ?_
      rintro ⟨l, here, -⟩
      cases Option.some.inj (found.symm.trans here)
      cases label
    rw [pass_of_plain _ label, pass_of_plain _ label]
    unfold SameBlock at same
    generalize m.standing position = place at same
    obtain ⟨block, ended⟩ := place
    cases ended with
    | true => exact fun named => absurd rfl named
    | false =>
      intro named opens
      rw [same named opens]
  | some l =>
    obtain rfl := label?_eq_some.mp label
    simp only [Standing.pass]
    by_cases still : n.opens l = true
    · rw [if_pos still, if_pos (faults.opens_of_target still)]
      exact fun _ _ => rfl
    · have same : m.SameBlock n position := by
        refine enterable.resolve_left ?_
        rintro ⟨other, here, opens⟩
        cases Option.some.inj (found.symm.trans here)
        exact still opens
      rw [if_neg still]
      split
      · exact fun _ opens => absurd opens still
      · exact same

/-- The block of a position, whatever becomes of the statement there. -/
theorem Enterable.blockAt (named : m.blockAt position ≠ .nowhere)
    (opens : n.opens (m.blockAt position) = true) : n.blockAt position = m.blockAt position := by
  rw [blockAt_eq_standing] at named opens ⊢
  cases reaches : a.reachesNull with
  | false =>
    rw [blockAt_eq_standing, enterable.pass faults found reaches named opens]
  | true =>
    obtain ⟨plain, -⟩ := plain_of_reachesNull reaches
    have there := faults.getElem?_actions found
    have same : m.SameBlock n position := by
      refine enterable.resolve_left ?_
      rintro ⟨l, here, -⟩
      cases Option.some.inj (found.symm.trans here)
      cases plain
    rw [blockAt_eq_standing, standing_succ there, pass_of_plain _ ((label?_faulting a).trans plain)]
    rw [standing_succ found, pass_of_plain _ plain] at named opens ⊢
    unfold SameBlock at same
    generalize m.standing position = place at same named opens ⊢
    obtain ⟨block, ended⟩ := place
    cases ended with
    | true => exact absurd rfl named
    | false =>
      rw [same named opens]
      rfl

end

end Enterable

end Method

/-! ## Runs in step -/

section Runs

variable {V : Type} [DecidableEq V] {w : World V} {null : V} {m n : Method}

omit [DecidableEq V] in
theorem carryOut_throwNullPointer (w : World V) (env : Env V) (caught : Option V)
    (history : History V) : (throw newNullPointer).carryOut w env caught history =
      some ((w.throwNullPointer history).1, env, .raise (w.throwNullPointer history).2) := by
  have made : evaluateAll w env caught history [newNullPointer] =
      andThen (some (w.ask history (.evaluate newNullPointer.head) [])) fun history x =>
        some (history, .ok [x]) := by
    rw [evaluateAll_single]
    rfl
  have inputs : (throw newNullPointer).inputs = [newNullPointer] := rfl
  unfold carryOut World.throwNullPointer
  rw [inputs, made]
  rcases w.ask history (.evaluate newNullPointer.head) [] with ⟨middle, x | x⟩
  · rfl
  · simp only [andThen_ok, conclude_throw]
    rcases w.ask middle .throw [x] with ⟨after, y | y⟩ <;> rfl

theorem Action.Proper.carryOut_faulting {a : Action} (proper : a.Proper) (first : a.FaultsFirst)
    {env after : Env V} {caught : Option V} {history before last : History V} {move : Move V}
    (same : w.spelledOut null before = w.spelledOut null history)
    (done : a.carryOut (w.guarded null) env caught history = some (last, after, move)) :
    (∃ other, a.faulting.carryOut (w.guarded null) env caught before = some (other, after, move) ∧
      w.spelledOut null other = w.spelledOut null last) ∧
        (a.reachesNull = true → ∃ x, move = .raise x) := by
  cases reaches : a.reachesNull with
  | true =>
    obtain ⟨rfl, request, operands, isFault, rfl, rfl⟩ := proper.carryOut_faulted reaches first done
    have both := w.throwNullPointer_guarded null before
    rw [same] at both
    have becomes : a.faulting = .throw newNullPointer := if_pos reaches
    refine ⟨⟨((w.guarded null).throwNullPointer before).1, ?_, ?_⟩, fun _ => ⟨_, rfl⟩⟩
    · rw [becomes, carryOut_throwNullPointer, ← both]
    · rw [World.spelledOut_of_faults isFault, ← both]
  | false =>
    refine ⟨?_, nofun⟩
    rw [faulting_of_not_reachesNull reaches]
    have alike : _ = (a.carryOut (w.guarded null) env caught history).map (w.spell null) :=
      proper.spell_carryOut same
    rw [done] at alike
    obtain ⟨⟨other, after', move'⟩, carried, spelled⟩ := Option.map_eq_some_iff.mp alike
    obtain ⟨spelled, rest⟩ := Prod.mk.inj spelled
    cases rest
    exact ⟨other, carried, spelled⟩

/-- Two states that stand at the same position and hold the same values, where the same requests
have got to the world. -/
structure State.InStep (w : World V) (null : V) (s t : State V) : Prop where
  position : t.position = s.position
  env : t.env = s.env
  caught : t.caught = s.caught
  history : w.spelledOut null t.history = w.spelledOut null s.history

/-- Two runs that have come equally far in step. Nothing is asked of a run beside one that is stuck.
-/
inductive KeepStep (w : World V) (null : V) (related : State V → State V → Prop) :
    Status (State V) V → Status (State V) V → Prop where
  | running {s t : State V} (here : related s t) : KeepStep w null related (.running s) (.running t)
  | returned (v : Option V) {history other : History V}
      (same : w.spelledOut null other = w.spelledOut null history) :
      KeepStep w null related (.returned v history) (.returned v other)
  | uncaught (x : V) {history other : History V}
      (same : w.spelledOut null other = w.spelledOut null history) :
      KeepStep w null related (.uncaught x history) (.uncaught x other)
  | stuck (status : Status (State V) V) : KeepStep w null related .stuck status

theorem KeepStep.mono {related weaker : State V → State V → Prop}
    {a b : Status (State V) V} (keep : KeepStep w null related a b)
    (imp : ∀ s t, related s t → weaker s t) : KeepStep w null weaker a b := by
  cases keep with
  | running here => exact .running (imp _ _ here)
  | returned v same => exact .returned v same
  | uncaught x same => exact .uncaught x same
  | stuck => exact .stuck b

theorem KeepStep.uncaught_eq {related : State V → State V → Prop} {a b : Status (State V) V} {x y : V}
    {history other : History V} (keep : KeepStep w null related a b)
    (ended : a.seen State.history = .uncaught x history)
    (endedThere : b.seen State.history = .uncaught y other) :
    y = x ∧ w.spelledOut null other = w.spelledOut null history := by
  cases keep with
  | uncaught z same =>
    obtain ⟨rfl, rfl⟩ := Seen.uncaught.inj ended
    obtain ⟨rfl, rfl⟩ := Seen.uncaught.inj endedThere
    exact ⟨rfl, same⟩
  | running | returned | stuck => cases ended

/-- Two states in step, each in its method. Unless a label stands last that opens a block no longer,
the block was entered by the same way, if that way has a name still. -/
structure State.Faulted (w : World V) (null : V) (m n : Method) (s t : State V) : Prop
    extends State.InStep w null s t where
  enterable : m.Enterable n s.position
  entered : m.lastLabel (s.position + 1) = .nowhere ∨
      n.opens (m.lastLabel (s.position + 1)) = true →
    t.entering = s.entering ∧
      (s.origin.1 ≠ .nowhere → n.opens s.origin.1 = true → t.origin = s.origin)

section Step

variable (tidy : m.Tidy) (faults : m.Faults n) {s t : State V}

include tidy faults

theorem State.Faulted.goTo (related : s.Faulted w null m n t) {a : Action}
    (found : m.actions[s.position]? = some a) {history other : History V}
    (spelled : w.spelledOut null other = w.spelledOut null history) (env : Env V)
    (caught : Option V) {next : Nat} (exceptional : Bool)
    (onward : next = s.position + 1 ∨ ∃ l, m.actions[next]? = some (.label l))
    (enterable : m.Enterable n next) :
    (({ s with history, env, caught } : State V).goTo m next exceptional).Faulted w null m n
      (({ t with history := other, env, caught } : State V).goTo n next exceptional) where
  position := by rw [goTo_position, goTo_position]
  env := by rw [goTo_env, goTo_env]
  caught := by rw [goTo_caught, goTo_caught]
  history := by rw [goTo_history, goTo_history, spelled]
  enterable := by rwa [goTo_position]
  entered := by
    intro current
    rw [goTo_position] at current
    rw [goTo_origin, goTo_origin, goTo_entering, goTo_entering]
    by_cases label : ∃ l, m.actions[next]? = some (.label l)
    · obtain ⟨l, there⟩ := label
      rw [lastLabel_succ there] at current
      have opens : n.opens l = true :=
        current.resolve_left (tidy.ne_nowhere (tidy.find?_eq_some.mpr there))
      obtain ⟨enters, entersBefore⟩ := faults.enters_iff l there
      rw [if_pos (enters.mpr opens), if_pos (entersBefore.mpr (faults.opens_of_target opens)),
        if_pos (enters.mpr opens), if_pos (entersBefore.mpr (faults.opens_of_target opens)),
        related.position]
      refine ⟨rfl, fun named stillOpens => ?_⟩
      rw [related.enterable.blockAt faults found named stillOpens]
    · have here : next = s.position + 1 := onward.resolve_right label
      have plain := faults.enters_of_plain fun l there => label ⟨l, there⟩
      have last : m.lastLabel (next + 1) = m.lastLabel (s.position + 1) := by
        rw [here]
        cases there : m.actions[s.position + 1]? with
        | none =>
          have outside := getElem?_eq_none_iff.mp there
          rw [lastLabel, lastLabel, take_of_length_le outside,
            take_of_length_le (Nat.le_succ_of_le outside)]
        | some b =>
          rw [lastLabel_succ there]
          cases isLabel : b.label? with
          | none => rfl
          | some l =>
            rw [label?_eq_some.mp isLabel] at there
            exact absurd ⟨l, here ▸ there⟩ label
      rw [last] at current
      rw [plain.1, plain.2]
      exact related.entered current

theorem State.Faulted.step (proper : m.Proper) (whole : m.JoinsWhole)
    (first : ∀ a ∈ m.actions, a.FaultsFirst) (tracked : s.Tracked m)
    (related : s.Faulted w null m n t) :
    KeepStep w null (Faulted w null m n) (s.step (w.guarded null) m)
      (t.step (w.guarded null) n) := by
  by_cases unstuck : s.step (w.guarded null) m = .stuck
  · rw [unstuck]
    exact .stuck _
  cases found : m.actions[s.position]? with
  | none =>
    refine absurd ?_ unstuck
    unfold State.step
    rw [found]
  | some a =>
    have there := faults.getElem?_actions found
    rw [← related.position] at there
    cases single : a.isPhi with
    | true =>
      cases a with
      | phi target args =>
        obtain ⟨arg, v, picks, value, step⟩ := step_eq_of_phi found unstuck
        obtain ⟨entering, origin⟩ := related.entered (by
          rw [lastLabel_succ found]
          refine or_iff_not_imp_left.mpr fun named => opens_iff.mpr (.inr (.inr ?_))
          exact mem_phiLabels.mpr ⟨named, t.position, target, args, there, by
              rw [related.position, faults.lastLabel_eq]
              rfl⟩)
        -- The join names the block that it was entered from, so both runs know it by this name.
        obtain ⟨assigned, entered, trail, -⟩ :=
          tracked (lt_of_get found)
        obtain ⟨other, picksOther, named⟩ := whole _ _ _ _ _ _ found trail
        obtain rfl := Option.some.inj (picks.symm.trans picksOther)
        obtain ⟨listed, way⟩ := picked_spec picks
        have pred : s.origin.1 = arg.pred := by rw [← way]; rfl
        have sameOrigin := origin (pred ▸ named) (pred ▸ faults.opens_of_stays found rfl
          (.inr (mem_map.mpr ⟨arg, listed, rfl⟩)))
        have stepThere := step_phi (w.guarded null) (s := t) (v := v) there (by
          rw [incoming, sameOrigin, entering]
          exact Option.bind_eq_some_iff.mpr ⟨arg, picks, value⟩)
        have same : ({ t with env := t.env.set target v } : State V) =
            { t with env := s.env.set target v, caught := s.caught } := by
          rw [related.env, ← related.caught]
        rw [step, stepThere, same, show t.position + 1 = s.position + 1 by rw [related.position]]
        exact .running (related.goTo tidy faults found related.history _ _ false (.inl rfl)
          (.inr (related.enterable.pass faults found rfl)))
      | _ => cases single
    | false =>
      obtain ⟨history, env, move, done, step⟩ := step_eq_of_plain found single unstuck
      have listed := mem_of_getElem? found
      obtain ⟨⟨other, doneThere, spelled⟩, raises⟩ := (proper.operands a listed).carryOut_faulting
        (first a listed) related.history done
      rw [← related.env, ← related.caught] at doneThere
      have stepThere := step_of_carryOut there ((isPhi_faulting a).trans single) doneThere
      have sameLabel : a.faulting.isLabel = a.isLabel := by
        rw [isLabel, isLabel, label?_faulting]
      rw [step, stepThere, sameLabel, related.caught]
      have stays : (∀ x, move ≠ .raise x) → a.reachesNull = false := by grind
      cases move with
      | next =>
        have enterable := related.enterable.pass faults found (stays fun x same => by cases same)
        simp only [follow]
        rw [show t.position + 1 = s.position + 1 by rw [related.position]]
        exact .running (related.goTo tidy faults found spelled env _ false (.inl rfl) (.inr enterable))
      | jump l =>
        obtain ⟨target, -, -⟩ := carryOut_jump done
        simp only [follow, faults.find?_eq]
        cases goal : m.find? l with
        | none => exact .stuck _
        | some next =>
          have label := tidy.find?_eq_some.mp goal
          have opens := faults.opens_of_stays found (stays fun x same => by cases same) (.inl target)
          exact .running (related.goTo tidy faults found spelled env _ false (.inr ⟨l, label⟩)
            (.inl ⟨l, label, opens⟩))
      | finish v => exact .returned v spelled
      | raise x =>
        have sameTrap : m.trapFor? (w.guarded null) x t.position =
            m.trapFor? (w.guarded null) x s.position := by rw [related.position]
        simp only [follow, faults.trapFor?_eq, faults.find?_eq, sameTrap]
        cases takes : m.trapFor? (w.guarded null) x s.position with
        | none => exact .uncaught x spelled
        | some trap =>
          dsimp only
          cases goal : m.find? trap.handler with
          | none => exact .stuck _
          | some next =>
            have label := tidy.find?_eq_some.mp goal
            have opens : n.opens trap.handler = true := by
              refine opens_iff.mpr (.inr (.inl ⟨trap, ?_, rfl⟩))
              rw [faults.traps]
              exact (trapFor?_spec takes).1
            exact .running (related.goTo tidy faults found spelled env (some x) true
              (.inr ⟨trap.handler, label⟩) (.inl ⟨trap.handler, label, opens⟩))

end Step

theorem Method.Faults.inStep (faults : m.Faults n) (tidy : m.Tidy) (proper : m.Proper)
    (whole : m.JoinsWhole) (first : ∀ a ∈ m.actions, a.FaultsFirst) (k : Nat) :
    KeepStep w null (State.Faulted w null m n) (m.run (w.guarded null) k)
      (n.run (w.guarded null) k) := by
  induction k with
  | zero =>
    refine .running ⟨⟨rfl, rfl, rfl, rfl⟩, .inr fun _ _ => rfl, fun _ => ⟨rfl, fun _ _ => rfl⟩⟩
  | succ k ih =>
    show KeepStep w null _ ((m.run (w.guarded null) k).step (w.guarded null) m)
      ((n.run (w.guarded null) k).step (w.guarded null) n)
    generalize reached : m.run (w.guarded null) k = a at ih
    generalize n.run (w.guarded null) k = b at ih
    cases ih with
    | running related =>
      exact Faulted.step tidy faults proper whole first (tracked_of_run tidy proper reached) related
    | returned v same => exact .returned v same
    | uncaught x same => exact .uncaught x same
    | stuck => exact .stuck _

end Runs

end DexLift.Ir
