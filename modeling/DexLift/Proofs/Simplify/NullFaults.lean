import DexLift.Proofs.Ir.Sifted
import DexLift.Proofs.Simplify.Filling
import DexLift.Simplify.Constants

/-!
# Reaching through null

Who reaches through null throws a new exception before anything else is asked for. A world is
guarded when it answers this way: a request whose first operand is null never gets to it, and what
it is asked for instead is the exception, as if the code had made and thrown it. All zeros are one
value of a guarded world, which a reader takes for a number or for null as it requires.
-/

namespace DexLift.Ir

open List World

/-! ## Requests that reach through an operand -/

variable {head : Head} {e : Expr} {es : List Expr} {a : Action}

/-- Whether a node reaches through its first operand. -/
def Head.reaches : Head → Bool
  | .field _ isStatic => !isStatic
  | .element _ | .arrayLength => true
  | .invoke kind _ => kind != .static
  | _ => false

/-- Whether a request reaches through its first operand. -/
def Request.reaches : Request → Bool
  | .evaluate head | .store head => head.reaches
  | .fill _ | .monitor _ => true
  | .throw => false

theorem Expr.reachesNull_eq (e : Expr) :
    e.reachesNull = (e.head.reaches && (e.arg 0).isNullLike) := by
  obtain ⟨head, args⟩ := e
  cases head <;> simp [reachesNull, Expr.head, Head.reaches]

theorem Head.throws_of_reaches (reaches : head.reaches = true) : head.throws = true := by
  cases head <;> first | rfl | cases reaches

theorem Expr.throws_of_reachesNull (reaches : e.reachesNull = true) : e.head.throws = true := by
  rw [reachesNull_eq, Bool.and_eq_true] at reaches
  exact Head.throws_of_reaches reaches.1

/-! ## Guarded worlds -/

section Guarded

variable {V : Type} [DecidableEq V]

def Request.faults (null : V) (request : Request) (operands : List V) : Bool :=
  request.reaches && operands.head? == some null

namespace World

variable (w : World V) (null : V)

/-- Makes and throws an exception for reaching through null: what has been asked for then, and what
is thrown. -/
def throwNullPointer (history : History V) : History V × V :=
  match w.ask history (.evaluate newNullPointer.head) [] with
  | (history, .error x) => (history, x)
  | (history, .ok x) =>
    match w.ask history .throw [x] with
    | (history, .ok y) => (history, y)
    | (history, .error y) => (history, y)

/-- The requests that get to the world: those that reach through null are replaced by making and
throwing the exception. -/
def spelledOut : History V → History V
  | [] => []
  | event :: before =>
    if event.request.faults null event.operands then (w.throwNullPointer (spelledOut before)).1
    else event :: spelledOut before

def guarded : World V where
  value head operands := if (Expr.leaf head).isZero then null else w.value head operands
  answer history request operands :=
    if request.faults null operands then .error (w.throwNullPointer (w.spelledOut null history)).2
    else w.answer (w.spelledOut null history) request operands
  holds := w.holds
  key := w.key
  takes := w.takes
  receiver := w.receiver
  param := w.param

variable {w null} {history : History V} {request : Request} {operands : List V}

theorem ask_guarded_of_faults (faults : request.faults null operands = true) :
    (w.guarded null).ask history request operands =
      (⟨request, operands, .error (w.throwNullPointer (w.spelledOut null history)).2⟩ :: history,
        .error (w.throwNullPointer (w.spelledOut null history)).2) := by
  unfold ask guarded
  simp only [faults, if_true]

theorem ask_guarded (faults : request.faults null operands = false) :
    (w.guarded null).ask history request operands =
      (⟨request, operands, w.answer (w.spelledOut null history) request operands⟩ :: history,
        w.answer (w.spelledOut null history) request operands) := by
  unfold ask guarded
  simp only [faults, Bool.false_eq_true, if_false]

theorem spelledOut_of_faults (faults : request.faults null operands = true) (answer : Except V V) :
    w.spelledOut null (⟨request, operands, answer⟩ :: history) =
      (w.throwNullPointer (w.spelledOut null history)).1 := by
  rw [spelledOut, if_pos faults]

theorem spelledOut_cons (faults : request.faults null operands = false) (answer : Except V V) :
    w.spelledOut null (⟨request, operands, answer⟩ :: history) =
      ⟨request, operands, answer⟩ :: w.spelledOut null history := by
  rw [spelledOut, if_neg (by simp [faults])]

theorem spelledOut_ask (faults : request.faults null operands = false) :
    (w.ask (w.spelledOut null history) request operands) =
      (w.spelledOut null ((w.guarded null).ask history request operands).1,
        ((w.guarded null).ask history request operands).2) := by
  rw [ask_guarded faults, spelledOut_cons faults]
  rfl

theorem throwNullPointer_guarded (w : World V) (null : V) (history : History V) :
    (w.spelledOut null ((w.guarded null).throwNullPointer history).1,
      ((w.guarded null).throwNullPointer history).2) =
        w.throwNullPointer (w.spelledOut null history) := by
  have made : (Request.evaluate newNullPointer.head).faults null ([] : List V) = false := rfl
  unfold throwNullPointer
  rw [spelledOut_ask made]
  rcases (w.guarded null).ask history (.evaluate newNullPointer.head) [] with ⟨middle, x | x⟩
  · rfl
  · have thrown : Request.throw.faults null [x] = false := rfl
    dsimp only
    rw [spelledOut_ask thrown]
    rcases (w.guarded null).ask middle .throw [x] with ⟨after, y | y⟩ <;> rfl

theorem value_guarded (zero : (Expr.leaf head).isZero = true) (operands : List V) :
    (w.guarded null).value head operands = null := by
  unfold guarded
  simp only [zero, if_true]

end World

/-! ## What throws first -/

variable {w : World V} {null : V} {env : Env V} {caught : Option V} {history : History V}

/-- What comes of reaching through null: the request, and the exception. -/
def Faulted {α : Type} (w : World V) (null : V) (history : History V)
    (r : History V × Except V α) : Prop :=
  ∃ request operands, request.faults null operands = true ∧
    r = (⟨request, operands, .error (w.throwNullPointer (w.spelledOut null history)).2⟩ :: history,
      .error (w.throwNullPointer (w.spelledOut null history)).2)

theorem Faulted.andThen {α β : Type} {first : Answer V α} {next : History V → α → Answer V β}
    {r : History V × Except V β} (faulted : ∀ r, first = some r → Faulted w null history r)
    (done : Ir.andThen first next = some r) : Faulted w null history r := by
  cases first with
  | none => cases done
  | some middle =>
    obtain ⟨request, operands, faults, rfl⟩ := faulted middle rfl
    cases done
    exact ⟨request, operands, faults, rfl⟩

theorem Expr.Proper.quiet_of_find? (proper : e.Proper)
    (none : e.evalOrder.find? (fun node => node.head.throws) = none) : e.canThrow = false := by
  rw [canThrow, any_eq_false]
  intro node listed
  exact find?_eq_none.mp none node (proper.mem_evalOrder node listed)

variable {r : History V × Except V (List V)}

omit [DecidableEq V] in
theorem quiet_of_evaluateAll (proper : ∀ e ∈ es, e.Proper) (quiet : ∀ e ∈ es, e.canThrow = false)
    (done : evaluateAll w env caught history es = some r) :
    ∃ values, r = (history, .ok values) := by
  induction es generalizing history r with
  | nil =>
    cases done
    exact ⟨[], rfl⟩
  | cons e rest ih =>
    rw [evaluateAll_cons] at done
    cases first : evaluate w env caught history e with
    | none =>
      rw [first] at done
      cases done
    | some middle =>
      obtain ⟨v, rfl⟩ := (proper e mem_cons_self).evaluate_of_quiet (quiet e mem_cons_self) first
      rw [first, andThen_ok] at done
      cases others : evaluateAll w env caught history rest with
      | none =>
        rw [others] at done
        cases done
      | some last =>
        obtain ⟨vs, rfl⟩ := ih (fun other later => proper other (.tail _ later))
          (fun other later => quiet other (.tail _ later)) others
        rw [others] at done
        cases done
        exact ⟨v :: vs, rfl⟩

theorem Expr.Proper.evaluate_zero (proper : e.Proper) (zero : e.isZero = true)
    (quiet : e.canThrow = false) {r : History V × Except V V}
    (done : evaluate (w.guarded null) env caught history e = some r) : r = (history, .ok null) := by
  cases proper with
  | @leaf head isLeaf =>
    cases head with
    | const => cases isLeaf
    | _ => cases zero
  | @inner head args inner operands =>
    rw [canThrow_inner inner, Bool.or_eq_false_iff] at quiet
    rw [evaluate_inner inner] at done
    cases values : evaluateAll (w.guarded null) env caught history args with
    | none =>
      rw [values] at done
      cases done
    | some middle =>
      obtain ⟨vs, rfl⟩ := quiet_of_evaluateAll operands
        (fun e member => by simpa using any_eq_false.mp quiet.2 e member) values
      rw [values, andThen_ok, compute, if_neg (by simp [quiet.1]), value_guarded zero] at done
      exact (Option.some.inj done).symm

theorem head?_of_isNullLike (proper : ∀ e ∈ es, e.Proper) (quiet : ∀ e ∈ es, e.canThrow = false)
    (isNull : (es.getD 0 .missing).isNullLike = true) {after : History V} {values : List V}
    (done : evaluateAll (w.guarded null) env caught history es = some (after, .ok values)) :
    values.head? = some null := by
  cases es with
  | nil => cases isNull
  | cons e rest =>
    have zero : e.isZero = true := by
      rw [getD_cons_zero, Expr.isNullLike, Bool.and_eq_true] at isNull
      exact isNull.1
    rw [evaluateAll_cons] at done
    obtain ⟨middle, v, first, done⟩ := andThen_eq_ok done
    obtain ⟨last, vs, -, done⟩ := andThen_eq_ok done
    cases done
    have same := (proper e mem_cons_self).evaluate_zero zero (quiet e mem_cons_self) first
    cases same
    rfl

theorem faulted_of_each (proper : ∀ e ∈ es, e.Proper) {node : Expr}
    (each : ∀ e ∈ es, e.evalOrder.find? (fun node => node.head.throws) = some node →
      ∀ r, evaluate (w.guarded null) env caught history e = some r → Faulted w null history r)
    (first : (es.flatMap Expr.evalOrder).find? (fun node => node.head.throws) = some node)
    (done : evaluateAll (w.guarded null) env caught history es = some r) :
    Faulted w null history r := by
  induction es generalizing r with
  | nil => cases first
  | cons e rest ih =>
    rw [flatMap_cons, find?_append] at first
    rw [evaluateAll_cons] at done
    cases here : e.evalOrder.find? (fun node => node.head.throws) with
    | some found =>
      rw [here, Option.some_or] at first
      cases first
      exact Faulted.andThen (each e mem_cons_self here) done
    | none =>
      rw [here, Option.none_or] at first
      have properHere := proper e mem_cons_self
      cases value : evaluate (w.guarded null) env caught history e with
      | none =>
        rw [value] at done
        cases done
      | some middle =>
        obtain ⟨v, rfl⟩ := properHere.evaluate_of_quiet (properHere.quiet_of_find? here) value
        rw [value, andThen_ok] at done
        refine Faulted.andThen (fun r others => ?_) done
        exact ih (fun other later => proper other (.tail _ later))
          (fun other later => each other (.tail _ later)) first others

theorem Expr.Proper.faulted {node : Expr} (proper : e.Proper)
    (first : e.evalOrder.find? (fun node => node.head.throws) = some node)
    (reaches : node.reachesNull = true) {r : History V × Except V V}
    (done : evaluate (w.guarded null) env caught history e = some r) :
    Faulted w null history r := by
  induction proper generalizing r with
  | @leaf head isLeaf =>
    rw [Expr.leaf, evalOrder, evalOrderOf, nil_append, find?_singleton] at first
    cases head with
    | missing | read | caught | this | param => cases first
    | _ => cases isLeaf
  | @inner head args inner operands ih =>
    rw [evalOrder, evalOrderOf_eq, find?_append] at first
    rw [evaluate_inner inner] at done
    cases below : (args.flatMap evalOrder).find? (fun node => node.head.throws) with
    | some found =>
      rw [below, Option.some_or] at first
      cases first
      exact Faulted.andThen (fun r values => faulted_of_each operands
        (fun e member here r value => ih e member here value) below values) done
    | none =>
      rw [below, Option.none_or, find?_singleton] at first
      -- The node itself is the first to throw.
      have quiet : ∀ e ∈ args, e.canThrow = false := fun e member =>
        (operands e member).quiet_of_find? (find?_eq_none.mpr fun n listed =>
          find?_eq_none.mp below n (mem_flatMap.mpr ⟨e, member, listed⟩))
      split at first
      next throws =>
        cases first
        rw [Expr.head] at throws
        rw [reachesNull_eq, Bool.and_eq_true] at reaches
        cases values : evaluateAll (w.guarded null) env caught history args with
        | none =>
          rw [values] at done
          cases done
        | some middle =>
          obtain ⟨vs, rfl⟩ := quiet_of_evaluateAll operands quiet values
          have isNull := head?_of_isNullLike operands quiet reaches.2 values
          have faults : (Request.evaluate head).faults null vs = true := by
            simp only [Request.faults, Bool.and_eq_true, beq_iff_eq]
            exact ⟨reaches.1, isNull⟩
          rw [values, andThen_ok, compute, if_pos throws, ask_guarded_of_faults faults] at done
          exact ⟨_, _, faults, (Option.some.inj done).symm⟩
      · cases first

/-! ## Statements -/

namespace Action

/-- Nothing that is evaluated in front of the first access through null can throw. -/
def FaultsFirst (a : Action) : Prop :=
  a.reachesNull = true → ∀ node ∈ a.evalOrder.find? fun node => node.head.throws,
    node.reachesNull = true

instance (a : Action) : Decidable a.FaultsFirst := by
  unfold FaultsFirst
  infer_instance

theorem mem_inputs_or_place (member : e ∈ a.operands) :
    e ∈ a.inputs ∨ ∃ value, a = .store e value := by
  cases a with
  | store place value =>
    rw [operands] at member
    rcases mem_cons.mp (mem_of_mem_filter member) with rfl | later
    · exact .inr ⟨value, rfl⟩
    · exact .inl (mem_append_right _ later)
  | branch cond left right target =>
    rw [operands] at member
    exact .inl (mem_of_mem_filter member)
  | label | phi | goto | nop => cases member
  | «return» v => exact .inl member
  | _ =>
    simp only [operands, value?] at member
    split at member
    · cases member
    · exact .inl member

namespace Proper

variable {a : Action} (proper : a.Proper)

include proper

theorem find?_evalOrder : a.evalOrder.find? (fun node => node.head.throws) =
    (a.inputs.flatMap Expr.evalOrder).find? fun node => node.head.throws := by
  obtain ⟨es, same, rfl | rfl⟩ := a.evalOrder_eq
  · rw [same]
  rw [same]
  have each := proper.inputs_proper
  generalize a.inputs = es at each
  induction es with
  | nil => rfl
  | cons e rest ih =>
    have later := ih fun other listed => each other (.tail _ listed)
    cases missing : e.isMissing with
    | false => simp [missing, find?_append, later]
    | true =>
      have quiet : e.evalOrder.find? (fun node => node.head.throws) = none := by
        have here := each e mem_cons_self
        cases here with
        | @leaf head =>
          have same : head = .missing := by simpa [Expr.isMissing, Expr.leaf, Expr.head] using missing
          subst same
          rfl
        | @inner head args inner =>
          have same : head = .missing := by simpa [Expr.isMissing, Expr.head] using missing
          subst same
          cases inner
      simp [missing, find?_append, later, quiet]

omit [DecidableEq V] in
theorem demands_of_reachesNull (reaches : a.reachesNull = true)
    (below : ∀ e ∈ a.inputs, ∀ node ∈ e.nodes, node.reachesNull = false) :
    ∃ request : Request, request.reaches = true ∧ (a.inputs.getD 0 .missing).isNullLike = true ∧
      a.defines? = none ∧ ∀ (w : World V) (history : History V) (values : List V),
        a.conclude w history values = w.demand history request values := by
  unfold reachesNull at reaches
  rcases Bool.or_eq_true _ _ ▸ reaches with direct | inside
  · cases a with
    | fillArray e data => exact ⟨.fill data, rfl, direct, rfl, fun _ _ _ => rfl⟩
    | monitorEnter e => exact ⟨.monitor true, rfl, direct, rfl, fun _ _ _ => rfl⟩
    | monitorExit e => exact ⟨.monitor false, rfl, direct, rfl, fun _ _ _ => rfl⟩
    | _ => cases direct
  · obtain ⟨e, member, inside⟩ := any_eq_true.mp inside
    obtain ⟨node, listed, isReaching⟩ := any_eq_true.mp inside
    rcases mem_inputs_or_place member with input | ⟨value, rfl⟩
    · rw [below e input node listed] at isReaching
      cases isReaching
    cases proper e mem_cons_self with
    | @leaf head isLeaf =>
      cases head with
      | missing => cases listed
      | read | caught | this | param =>
        cases mem_singleton.mp listed
        cases isReaching
      | _ => cases isLeaf
    | @inner head args inner operands =>
      rw [Expr.nodes_inner inner] at listed
      rcases mem_cons.mp listed with rfl | later
      · rw [Expr.reachesNull_eq, Bool.and_eq_true] at isReaching
        refine ⟨.store head, isReaching.1, ?_, rfl, fun _ _ _ => rfl⟩
        cases args with
        | nil => cases isReaching.2
        | cons array rest => exact isReaching.2
      · obtain ⟨operand, operandListed, here⟩ := mem_flatMap.mp later
        rw [below operand (mem_append_left _ operandListed) node here] at isReaching
        cases isReaching

theorem carryOut_faulted (reaches : a.reachesNull = true) (first : a.FaultsFirst)
    {last : History V} {after : Env V} {move : Move V}
    (done : a.carryOut (w.guarded null) env caught history = some (last, after, move)) :
    after = env ∧ ∃ request operands, request.faults null operands = true ∧
      last = ⟨request, operands, .error (w.throwNullPointer (w.spelledOut null history)).2⟩ ::
        history ∧ move = .raise (w.throwNullPointer (w.spelledOut null history)).2 := by
  have each := proper.inputs_proper
  have throwsFirst := first reaches
  rw [proper.find?_evalOrder] at throwsFirst
  unfold carryOut at done
  cases values : evaluateAll (w.guarded null) env caught history a.inputs with
  | none =>
    rw [values] at done
    cases done
  | some r =>
    cases found : (a.inputs.flatMap Expr.evalOrder).find? fun node => node.head.throws with
    | some node =>
      obtain ⟨request, operands, faults, rfl⟩ := faulted_of_each each
        (fun e member here r value => (each e member).faulted here (throwsFirst node found) value)
        found values
      rw [values] at done
      cases done
      exact ⟨rfl, request, operands, faults, rfl, rfl⟩
    | none =>
      -- The operands are quiet, so the statement itself is what reaches through null.
      have quietNode := find?_eq_none.mp found
      have quiet : ∀ e ∈ a.inputs, e.canThrow = false := fun e member =>
        (each e member).quiet_of_find? (find?_eq_none.mpr fun n listed =>
          quietNode n (mem_flatMap.mpr ⟨e, member, listed⟩))
      obtain ⟨request, isReaching, isNull, plain, concludes⟩ :=
        proper.demands_of_reachesNull (V := V) reaches fun e member node listed => by
          rw [Bool.eq_false_iff]
          intro contrary
          exact quietNode node
            (mem_flatMap.mpr ⟨e, member, (each e member).mem_evalOrder node listed⟩)
            (Expr.throws_of_reachesNull contrary)
      obtain ⟨vs, rfl⟩ := quiet_of_evaluateAll each quiet values
      have faults : request.faults null vs = true := by
        simp only [Request.faults, Bool.and_eq_true, beq_iff_eq]
        exact ⟨isReaching, head?_of_isNullLike each quiet isNull values⟩
      rw [values] at done
      simp only [concludes, demand, ask_guarded_of_faults faults] at done
      cases done
      refine ⟨?_, request, vs, faults, rfl, rfl⟩
      rw [plain]
      rfl

end Proper

end Action

/-! ## Histories that are spelled out alike -/

/-- What was given, with the requests that got to the world. -/
def World.spell {α : Type} (w : World V) (null : V) (r : History V × α) : History V × α :=
  (w.spelledOut null r.1, r.2)

section Alike

variable {before : History V} (same : w.spelledOut null before = w.spelledOut null history)

include same

theorem World.spell_ask (request : Request) (operands : List V) :
    w.spell null ((w.guarded null).ask before request operands) =
      w.spell null ((w.guarded null).ask history request operands) := by
  cases faults : request.faults null operands with
  | true =>
    rw [ask_guarded_of_faults faults, ask_guarded_of_faults faults]
    simp only [spell, spelledOut_of_faults faults, same]
  | false =>
    rw [ask_guarded faults, ask_guarded faults]
    simp only [spell, spelledOut_cons faults, same]

theorem World.spell_compute (head : Head) (values : List V) :
    ((w.guarded null).compute head before values).map (w.spell null) =
      ((w.guarded null).compute head history values).map (w.spell null) := by
  unfold compute
  split
  · exact congrArg some (spell_ask same _ _)
  · simp only [Option.map_some, spell, same]

end Alike

theorem World.spell_andThen {α β : Type} {first other : Answer V α}
    {next otherNext : History V → α → Answer V β}
    (firstStep : other.map (w.spell null) = first.map (w.spell null))
    (nextStep : ∀ history before a, w.spelledOut null before = w.spelledOut null history →
      (otherNext before a).map (w.spell null) = (next history a).map (w.spell null)) :
    (andThen other otherNext).map (w.spell null) = (andThen first next).map (w.spell null) := by
  rcases first with _ | ⟨history, r⟩ <;> rcases other with _ | ⟨before, r'⟩
  · rfl
  · cases firstStep
  · cases firstStep
  · obtain ⟨same, given⟩ := Prod.mk.inj (Option.some.inj firstStep)
    dsimp only at same given
    subst given
    cases r' with
    | error x => simp only [andThen_error, Option.map_some, spell, same]
    | ok a => exact nextStep history before a same

theorem World.spell_evaluateAll {es : List Expr}
    (each : ∀ e ∈ es, ∀ {history before : History V},
      w.spelledOut null before = w.spelledOut null history →
      (evaluate (w.guarded null) env caught before e).map (w.spell null) =
        (evaluate (w.guarded null) env caught history e).map (w.spell null))
    {before : History V} (same : w.spelledOut null before = w.spelledOut null history) :
    (evaluateAll (w.guarded null) env caught before es).map (w.spell null) =
      (evaluateAll (w.guarded null) env caught history es).map (w.spell null) := by
  induction es generalizing history before with
  | nil => simp only [evaluateAll, Option.map_some, spell, same]
  | cons e rest ih =>
    rw [evaluateAll_cons, evaluateAll_cons]
    refine spell_andThen (each e mem_cons_self same) fun history before v same => ?_
    refine spell_andThen (ih (fun other later => each other (.tail _ later)) same) ?_
    intro history before vs same
    simp only [Option.map_some, spell, same]

theorem Expr.Proper.spell_evaluate {e : Expr} (proper : e.Proper) {history before : History V}
    (same : w.spelledOut null before = w.spelledOut null history) :
    (evaluate (w.guarded null) env caught before e).map (w.spell null) =
      (evaluate (w.guarded null) env caught history e).map (w.spell null) := by
  induction proper generalizing history before with
  | @leaf head isLeaf =>
    cases head with
    | read id => cases set : env id <;> simp [Expr.leaf, evaluate, set, spell, same]
    | caught type desc => cases set : caught <;> simp [Expr.leaf, evaluate, spell, same]
    | missing => exact spell_compute same .missing []
    | this | param => simp only [Expr.leaf, evaluate, Option.map_some, spell, same]
    | _ => cases isLeaf
  | inner inner _ ih =>
    rw [evaluate_inner inner, evaluate_inner inner]
    refine spell_andThen (spell_evaluateAll ih same) ?_
    exact fun _ _ values same => spell_compute same _ values

/-- Where control goes on an answer that nobody reads. -/
def Move.after {V : Type} : Except V V → Move V
  | .ok _ => .next
  | .error x => .raise x

/-- Where control goes on the answer to a throw. -/
def Move.thrown {V : Type} : Except V V → Move V
  | .ok x | .error x => .raise x

omit [DecidableEq V] in
theorem World.demand_eq (w : World V) (history : History V) (request : Request) (values : List V) :
    w.demand history request values =
      ((w.ask history request values).1, none, .after (w.ask history request values).2) := by
  unfold demand
  rcases w.ask history request values with ⟨after, x | v⟩ <;> rfl

omit [DecidableEq V] in
theorem Action.conclude_throw (w : World V) (history : History V) (e : Expr) (values : List V) :
    (Action.throw e).conclude w history values =
      ((w.ask history .throw values).1, none, .thrown (w.ask history .throw values).2) := by
  simp only [conclude]
  rcases w.ask history .throw values with ⟨after, x | v⟩ <;> rfl

variable {before : History V}

theorem Action.spell_conclude (same : w.spelledOut null before = w.spelledOut null history)
    (a : Action) (values : List V) :
    w.spell null (a.conclude (w.guarded null) before values) =
      w.spell null (a.conclude (w.guarded null) history values) := by
  have demands : ∀ request : Request, w.spell null ((w.guarded null).demand before request values) =
        w.spell null ((w.guarded null).demand history request values) := by
    intro request
    obtain ⟨spelled, given⟩ := Prod.mk.inj (spell_ask same request values)
    rw [demand_eq, demand_eq]
    simp only [spell, spelled, given]
  have plain : ∀ r : Option V × Move V, w.spell null (before, r) = w.spell null (history, r) := by
    intro r
    simp only [spell, same]
  cases a with
  | store | fillArray | monitorEnter | monitorExit => exact demands _
  | throw =>
    obtain ⟨spelled, given⟩ := Prod.mk.inj (spell_ask same .throw values)
    rw [conclude_throw, conclude_throw]
    simp only [spell, spelled, given]
  | assign | identity | «switch» => cases values <;> exact plain _
  | _ => exact plain _

theorem Action.Proper.spell_carryOut (proper : a.Proper)
    (same : w.spelledOut null before = w.spelledOut null history) :
    (a.carryOut (w.guarded null) env caught before).map (w.spell null) =
      (a.carryOut (w.guarded null) env caught history).map (w.spell null) := by
  have values : (evaluateAll (w.guarded null) env caught before a.inputs).map (w.spell null) = _ :=
    spell_evaluateAll
      (fun e member {_ _} same => (proper.inputs_proper e member).spell_evaluate same) same
  unfold carryOut
  generalize evaluateAll (w.guarded null) env caught before a.inputs = first at values ⊢
  generalize evaluateAll (w.guarded null) env caught history a.inputs = second at values ⊢
  rcases first with _ | ⟨first, r⟩ <;> rcases second with _ | ⟨second, r'⟩
  · rfl
  · cases values
  · cases values
  · obtain ⟨spelled, given⟩ := Prod.mk.inj (Option.some.inj values)
    dsimp only at spelled given
    subst given
    cases r with
    | error x => simp only [Option.map_some, spell, spelled]
    | ok vs =>
      obtain ⟨concluded, moves⟩ := Prod.mk.inj (Action.spell_conclude spelled a vs)
      simp only [Option.map_some, spell, concluded, moves]

end Guarded

end DexLift.Ir
