import DexLift.Proofs.Ir.Evaluation

/-!
# What statements do

Apart from joins, a statement evaluates its operands from left to right and then
does one thing with their values: it defines a local, makes a request, or says
where control goes. Writing a value where a local is read changes the operands
and nothing else.
-/

namespace DexLift.Ir

open List Ir.Expr

namespace Action

/-- The outermost expressions of a statement, those left out included. -/
def parts : Action → List Expr
  | assign _ value | identity _ value | fillArray value _ | switch value _ _ _ | throw value
  | monitorEnter value | monitorExit value | void value => [value]
  | store place value => [place, value]
  | branch _ left right _ => left :: right.toList
  | .return value => value.toList
  | label _ | phi _ _ | goto _ | nop => []

/-- The expressions a statement evaluates, in order. The place of a store is not evaluated, only its
operands. -/
def inputs : Action → List Expr
  | store place value => place.args ++ [value]
  | action => action.parts

/-- A statement of proper expressions. -/
def Proper (a : Action) : Prop := ∀ e ∈ a.parts, e.Proper

end Action

/-! ## Reads -/

section Reads

variable {a : Action} {l : LocalId} {value : Expr}

theorem Expr.uses_of_isMissing {e : Expr} (missing : e.isMissing = true) : e.uses = [] := by
  obtain ⟨head, args⟩ := e
  have same : head = .missing := by simpa [isMissing, Expr.head] using missing
  rw [same, uses, nodes]
  rfl

theorem flatMap_uses_filter (es : List Expr) :
    (es.filter fun e => !e.isMissing).flatMap uses = es.flatMap uses := by
  induction es with
  | nil => rfl
  | cons e rest ih =>
    cases missing : e.isMissing with
    | true => simp [missing, ih, uses_of_isMissing missing]
    | false => simp [missing, ih]

theorem Action.uses_eq (a : Action) : a.uses = a.parts.flatMap Expr.uses := by
  have one : ∀ e : Expr, (if e.isMissing = true then none else some e).toList.flatMap Expr.uses =
      [e].flatMap Expr.uses := by
    intro e
    cases missing : e.isMissing with
    | true => simp [uses_of_isMissing missing]
    | false => simp
  cases a with
  | store place value => exact flatMap_uses_filter [place, value]
  | branch cond left right target => exact flatMap_uses_filter (left :: right.toList)
  | label | phi | goto | nop | «return» => rfl
  | _ => exact one _

theorem Action.Proper.inputs_uses (proper : a.Proper) :
    (a.inputs.flatMap Expr.uses).Sublist a.uses := by
  rw [uses_eq]
  cases a with
  | store place value =>
    have place_ : (place.args.flatMap Expr.uses).Sublist place.uses := by
      cases proper place mem_cons_self with
      | leaf => exact nil_sublist _
      | inner inner =>
        rw [Expr.uses_inner inner]
        exact Sublist.refl _
    simp only [inputs, parts, flatMap_append, flatMap_cons, flatMap_nil, append_nil]
    exact place_.append (Sublist.refl _)
  | _ => exact Sublist.refl _

theorem Action.Proper.inputs_proper (proper : a.Proper) : ∀ e ∈ a.inputs, e.Proper := by
  cases a with
  | store place value =>
    intro e member
    rcases mem_append.mp member with operand | last
    · cases proper place mem_cons_self with
      | leaf => cases operand
      | inner _ operands => exact operands e operand
    · rw [mem_singleton.mp last]
      exact proper value (by simp [parts])
  | _ => exact proper

theorem Action.isLabel_of_plain {a : Action} (plain : a.label? = none) : a.isLabel = false := by
  rw [isLabel, plain]
  rfl

end Reads

/-! ## Writing a value into a statement -/

section ReplaceLocal

variable {a : Action} {l : LocalId} {value : Expr}

theorem Expr.replaceLocal_of_isMissing {e : Expr} (missing : e.isMissing = true) (l : LocalId)
    (value : Expr) : replaceLocal l value e = e := by
  obtain ⟨head, args⟩ := e
  have same : head = .missing := by simpa [isMissing, Expr.head] using missing
  rw [same, replaceLocal, mapNodes]

theorem Expr.replaceLocal_eq_ite (l : LocalId) (value e : Expr) :
    (if e.isMissing then e else replaceLocal l value e) = replaceLocal l value e := by
  split
  next missing => exact (replaceLocal_of_isMissing missing l value).symm
  · rfl

namespace Action

variable (a : Action) (l : LocalId) (value : Expr)

theorem parts_replaceLocal :
    (a.replaceLocal l value).parts = a.parts.map (Expr.replaceLocal l value) := by
  cases a with
  | branch cond left right target =>
    cases right <;> simp [replaceLocal, mapOperands, parts, Expr.replaceLocal_eq_ite]
  | «return» v => cases v <;> simp [replaceLocal, mapOperands, parts, Expr.replaceLocal_eq_ite]
  | _ => simp [replaceLocal, mapOperands, parts, Expr.replaceLocal_eq_ite]

@[simp] theorem label?_replaceLocal : (a.replaceLocal l value).label? = a.label? := by
  cases a <;> rfl

@[simp] theorem isPhi_replaceLocal : (a.replaceLocal l value).isPhi = a.isPhi := by
  cases a <;> rfl

@[simp] theorem phiArgs_replaceLocal : (a.replaceLocal l value).phiArgs = a.phiArgs := by
  cases a <;> rfl

@[simp] theorem defines?_replaceLocal : (a.replaceLocal l value).defines? = a.defines? := by
  cases a <;> rfl

@[simp] theorem targets_replaceLocal : (a.replaceLocal l value).targets = a.targets := by
  cases a <;> rfl

@[simp] theorem fallsThrough_replaceLocal :
    (a.replaceLocal l value).fallsThrough = a.fallsThrough := by
  cases a <;> rfl

@[simp] theorem endsBlock_replaceLocal : (a.replaceLocal l value).endsBlock = a.endsBlock := by
  cases a <;> rfl

end Action

theorem Action.Proper.replaceLocal (proper : a.Proper) (l : LocalId) (properValue : value.Proper) :
    (a.replaceLocal l value).Proper := by
  intro e member
  rw [parts_replaceLocal] at member
  obtain ⟨original, listed, rfl⟩ := mem_map.mp member
  exact (proper original listed).replaceLocal l properValue

theorem Action.Proper.uses_replaceLocal (proper : a.Proper) (l : LocalId) (value : Expr) :
    (a.replaceLocal l value).uses = a.uses.flatMap fun x => if x = l then value.uses else [x] := by
  rw [uses_eq, uses_eq, parts_replaceLocal, flatMap_map, flatMap_assoc]
  exact flatMap_congr fun e member => (proper e member).uses_replaceLocal l value

def Action.KeepsPlace (a : Action) (l : LocalId) : Prop :=
  ∀ place value, a = .store place value → place ≠ .read l

theorem Action.inputs_eq_parts (plain : ∀ place stored, a ≠ .store place stored) :
    a.inputs = a.parts := by
  cases a with
  | store place stored => exact absurd rfl (plain place stored)
  | _ => rfl

theorem Action.replaceLocal_store (l : LocalId) (value place stored : Expr) :
    (Action.store place stored).replaceLocal l value =
      .store (Expr.replaceLocal l value place) (Expr.replaceLocal l value stored) := by
  simp only [replaceLocal, mapOperands, replaceLocal_eq_ite]

theorem Action.Proper.inputs_replaceLocal (proper : a.Proper) (keeps : a.KeepsPlace l)
    (value : Expr) :
    (a.replaceLocal l value).inputs = a.inputs.map (Expr.replaceLocal l value) := by
  by_cases stores : ∃ place stored, a = .store place stored
  · obtain ⟨place, stored, rfl⟩ := stores
    have operands : (Expr.replaceLocal l value place).args =
        place.args.map (Expr.replaceLocal l value) := by
      cases proper place mem_cons_self with
      | @leaf head isLeaf =>
        rw [replaceLocal_leaf isLeaf value]
        · rfl
        · rintro rfl
          exact keeps _ _ rfl rfl
      | inner inner =>
        rw [replaceLocal_inner inner]
        rfl
    rw [replaceLocal_store, inputs, inputs, operands, map_append]
    rfl
  · have plain : ∀ place stored, a ≠ .store place stored :=
      fun place stored same => stores ⟨place, stored, same⟩
    have changed : ∀ place stored, a.replaceLocal l value ≠ .store place stored := by
      cases a with
      | store place stored => exact absurd rfl (plain place stored)
      | _ => exact fun _ _ contrary => nomatch contrary
    rw [inputs_eq_parts plain, inputs_eq_parts changed, parts_replaceLocal]

/-- Whether a statement makes a request of its own that may be refused. -/
def Action.demands : Action → Bool
  | .store .. | .fillArray .. | .throw .. | .monitorEnter .. | .monitorExit .. => true
  | _ => false

theorem any_canThrow_filter (es : List Expr) :
    (es.filter fun e => !e.isMissing).any canThrow = es.any canThrow := by
  have quiet : ∀ e : Expr, e.isMissing = true → e.canThrow = false := by
    rintro ⟨head, args⟩ missing
    have same : head = .missing := by simpa [Expr.isMissing, Expr.head] using missing
    rw [same, canThrow, nodes]
    rfl
  induction es with
  | nil => rfl
  | cons e rest ih =>
    cases missing : e.isMissing with
    | true => simp [missing, ih, quiet e missing]
    | false => simp [missing, ih]

theorem Action.canThrow_eq (reader : a.isReader = true) :
    a.canThrow = (a.demands || a.parts.any Expr.canThrow) := by
  have one : ∀ e : Expr, (if e.isMissing = true then none else some e).toList.any Expr.canThrow =
      [e].any Expr.canThrow := by
    intro e
    refine Eq.trans ?_ (any_canThrow_filter [e])
    cases missing : e.isMissing <;> simp [missing]
  cases a with
  | label | phi | identity | nop | goto => cases reader
  | store | fillArray | throw | monitorEnter | monitorExit | «return» => rfl
  | branch cond left right target => exact any_canThrow_filter (left :: right.toList)
  | _ => exact one _

theorem Action.Proper.canThrow_replaceLocal (proper : a.Proper) (reader : a.isReader = true)
    (throws : (a.replaceLocal l value).canThrow = true) :
    a.canThrow = true ∨ value.canThrow = true := by
  have stillReader : (a.replaceLocal l value).isReader = true := by
    cases a <;> exact reader
  have sameDemands : (a.replaceLocal l value).demands = a.demands := by
    cases a <;> rfl
  rw [canThrow_eq stillReader, sameDemands, parts_replaceLocal, Bool.or_eq_true,
    any_eq_true] at throws
  rw [canThrow_eq reader, Bool.or_eq_true, any_eq_true]
  rcases throws with own | ⟨changed, member, here⟩
  · exact .inl (.inl own)
  · obtain ⟨original, listed, rfl⟩ := mem_map.mp member
    rcases (proper original listed).canThrow_replaceLocal here with operand | written
    · exact .inl (.inr ⟨original, listed, operand⟩)
    · exact .inr written

end ReplaceLocal

/-! ## Performing -/

variable {V : Type} (w : World V)

/-- The values of locals after a statement that may define one. -/
def Env.define (env : Env V) : Option LocalId → Option V → Env V
  | some l, some v => env.set l v
  | _, _ => env

/-- What a request whose answer nobody reads leads to. -/
def World.demand (history : History V) (request : Request) (values : List V) :
    History V × Option V × Move V :=
  match w.ask history request values with
  | (history, .ok _) => (history, none, .next)
  | (history, .error x) => (history, none, .raise x)

/-- What a statement does once its operands have values: the requests, the value of the local it
defines, and where control goes. -/
def Action.conclude (history : History V) : Action → List V → History V × Option V × Move V
  | .assign _ _, v :: _ | .identity _ _, v :: _ => (history, some v, .next)
  | .store place _, values => w.demand history (.store place.head) values
  | .fillArray _ data, values => w.demand history (.fill data) values
  | .monitorEnter _, values => w.demand history (.monitor true) values
  | .monitorExit _, values => w.demand history (.monitor false) values
  | .branch cond _ _ target, values =>
    let taken := values.head?.any fun v => w.holds cond v values[1]?
    (history, none, if taken then .jump target else .next)
  | .goto target, _ => (history, none, .jump target)
  | .switch _ keys targets default, v :: _ =>
    (history, none, .jump (switchLabel keys targets default (w.key v)))
  | .return _, values => (history, none, .finish values.head?)
  | .throw _, values =>
    match w.ask history .throw values with
    | (history, .ok x) => (history, none, .raise x)
    | (history, .error x) => (history, none, .raise x)
  | _, _ => (history, none, .next)

/-- Evaluates the operands of a statement and goes on with their values. -/
def Action.carryOut (env : Env V) (caught : Option V) (history : History V) (a : Action) :
    Option (History V × Env V × Move V) :=
  match evaluateAll w env caught history a.inputs with
  | none => none
  | some (history, .error x) => some (history, env, .raise x)
  | some (history, .ok values) =>
    let (history, v, move) := a.conclude w history values
    some (history, env.define a.defines? v, move)

variable {w}

theorem evaluateAll_single {env : Env V} {caught : Option V} {history : History V} (e : Expr) :
    evaluateAll w env caught history [e] =
      andThen (evaluate w env caught history e) fun history v => some (history, .ok [v]) := by
  rw [evaluateAll_cons]
  rfl

theorem State.perform_eq (s : State V) {a : Action} (single : a.isPhi = false) :
    s.perform w a = a.carryOut w s.env s.caught s.history := by
  have one : ∀ (e : Expr) (go : History V → V → History V × Env V × Move V),
      s.withValue w e go =
        match evaluateAll w s.env s.caught s.history [e] with
        | none => none
        | some (history, .error x) => some (history, s.env, .raise x)
        | some (history, .ok values) => values.head?.map (go history) := by
    intro e go
    rw [evaluateAll_single, State.withValue]
    rcases evaluate w s.env s.caught s.history e with _ | ⟨_, _ | _⟩ <;> rfl
  have values : ∀ {e : Expr} {history : History V} {vs : List V},
      evaluateAll w s.env s.caught s.history [e] = some (history, .ok vs) → ∃ v, vs = [v] := by
    intro e history vs done
    rw [evaluateAll_single] at done
    obtain ⟨_, v, -, done⟩ := andThen_eq_ok done
    cases done
    exact ⟨v, rfl⟩
  have requests : ∀ (es : List Expr) (request : Request),
      s.request w es request =
        match evaluateAll w s.env s.caught s.history es with
        | none => none
        | some (history, .error x) => some (history, s.env, .raise x)
        | some (history, .ok values) =>
          let (history, v, move) := w.demand history request values
          some (history, s.env.define none v, move) := by
    intro es request
    rw [State.request, State.withValues]
    rcases evaluateAll w s.env s.caught s.history es with _ | ⟨history, x | values⟩
    · rfl
    · rfl
    · dsimp only [World.demand]
      rcases w.ask history request values with ⟨_, _ | _⟩ <;> rfl
  cases a with
  | phi => cases single
  | label | nop | goto => rfl
  | store | fillArray | monitorEnter | monitorExit => exact requests _ _
  | branch cond left right target =>
    unfold State.perform State.withValues Action.carryOut
    dsimp only [Action.inputs, Action.parts]
    rcases evaluateAll w s.env s.caught s.history (left :: right.toList) with _ | ⟨_, _ | _⟩ <;> rfl
  | «return» v =>
    cases v with
    | none => rfl
    | some e =>
      unfold State.perform Action.carryOut
      dsimp only [Action.inputs, Action.parts, Option.toList_some]
      rw [one]
      rcases here : evaluateAll w s.env s.caught s.history [e] with _ | ⟨_, _ | vs⟩
      · rfl
      · rfl
      · obtain ⟨v, rfl⟩ := values here
        rfl
  | throw e =>
    unfold State.perform Action.carryOut
    dsimp only [Action.inputs, Action.parts]
    rw [one]
    rcases here : evaluateAll w s.env s.caught s.history [e] with _ | ⟨history, _ | vs⟩
    · rfl
    · rfl
    · obtain ⟨v, rfl⟩ := values here
      dsimp only [head?_cons, Option.map_some, Action.conclude]
      rcases w.ask history .throw [v] with ⟨_, _ | _⟩ <;> rfl
  | _ =>
    unfold State.perform Action.carryOut
    dsimp only [Action.inputs, Action.parts]
    rw [one]
    rcases here : evaluateAll w s.env s.caught s.history [_] with _ | ⟨_, _ | vs⟩
    · rfl
    · rfl
    · obtain ⟨v, rfl⟩ := values here
      rfl

theorem length_of_evaluateAll {env : Env V} {caught : Option V} {history after : History V}
    {es : List Expr} {values : List V}
    (done : evaluateAll w env caught history es = some (after, .ok values)) :
    values.length = es.length := by
  induction es generalizing history values with
  | nil =>
    cases done
    rfl
  | cons e rest ih =>
    rw [evaluateAll_cons] at done
    obtain ⟨middle, v, -, done⟩ := andThen_eq_ok done
    obtain ⟨last, vs, others, done⟩ := andThen_eq_ok done
    cases done
    rw [length_cons, ih others, length_cons]

/-- What statements do with values: only requests are refused, jumps lead to targets, and control
goes on only where it can, with a value for what is defined. -/
theorem Action.conclude_spec (a : Action) (history : History V) {values : List V}
    (all : values.length = a.inputs.length) :
    match a.conclude w history values with
    | (_, v, .next) => a.fallsThrough = true ∧ ∀ l, a.defines? = some l → a.isPhi = false → v.isSome
    | (_, v, .jump l) => l ∈ a.targets ∧ v = none
    | (_, v, .raise _) => a.demands = true ∧ v = none
    | (_, _, .finish _) => True := by
  have demands : ∀ (request : Request) (values : List V),
      ∃ after, w.demand history request values = (after, none, .next) ∨
        ∃ x, w.demand history request values = (after, none, .raise x) := by
    intro request values
    unfold World.demand
    rcases w.ask history request values with ⟨after, x | v⟩
    · exact ⟨after, .inr ⟨x, rfl⟩⟩
    · exact ⟨after, .inl rfl⟩
  cases a with
  | store place _ =>
    obtain ⟨after, done | ⟨x, done⟩⟩ := demands (.store place.head) values <;>
      simp [conclude, done, fallsThrough, defines?, Action.demands]
  | fillArray _ data =>
    obtain ⟨after, done | ⟨x, done⟩⟩ := demands (.fill data) values <;>
      simp [conclude, done, fallsThrough, defines?, Action.demands]
  | monitorEnter =>
    obtain ⟨after, done | ⟨x, done⟩⟩ := demands (.monitor true) values <;>
      simp [conclude, done, fallsThrough, defines?, Action.demands]
  | monitorExit =>
    obtain ⟨after, done | ⟨x, done⟩⟩ := demands (.monitor false) values <;>
      simp [conclude, done, fallsThrough, defines?, Action.demands]
  | branch cond left right target =>
    simp only [conclude]
    split
    next same => split at same <;> simp_all [fallsThrough, defines?]
    next same => split at same <;> simp_all [targets]
    next same => split at same <;> simp_all
    next => trivial
  | «switch» e keys targets default =>
    obtain ⟨v, rfl⟩ : ∃ v, values = [v] := length_eq_one_iff.mp all
    refine ⟨?_, rfl⟩
    unfold switchLabel
    cases found : (keys.zip targets).find? fun k => k.1 == w.key v with
    | none => exact mem_cons_self
    | some pair =>
      exact .tail _ (of_mem_zip (mem_of_find?_eq_some found)).2
  | throw =>
    simp only [conclude]
    rcases w.ask history .throw values with ⟨after, x | v⟩ <;> exact ⟨rfl, rfl⟩
  | assign | identity =>
    obtain ⟨v, rfl⟩ : ∃ v, values = [v] := length_eq_one_iff.mp all
    exact ⟨rfl, fun _ _ _ => rfl⟩
  | goto target => exact ⟨mem_singleton.mpr rfl, rfl⟩
  | «return» => trivial
  | phi => exact ⟨rfl, fun _ _ contrary => nomatch contrary⟩
  | label | nop | void => exact ⟨rfl, fun _ contrary => nomatch contrary⟩

theorem Action.Proper.conclude_replaceLocal {a : Action} (proper : a.Proper) {l : LocalId}
    (keeps : a.KeepsPlace l) (value : Expr) (history : History V) (values : List V) :
    (a.replaceLocal l value).conclude w history values = a.conclude w history values := by
  cases a with
  | store place stored =>
    have same : (Expr.replaceLocal l value place).head = place.head := by
      cases proper place mem_cons_self with
      | @leaf head isLeaf =>
        rw [replaceLocal_leaf isLeaf value]
        rintro rfl
        exact keeps _ _ rfl rfl
      | inner inner =>
        rw [replaceLocal_inner inner]
        rfl
    rw [replaceLocal_store, conclude, conclude, same]
  | assign | identity | «switch» => cases values <;> rfl
  | _ => rfl

theorem Env.define_eq {env other : Env V} {target : Option LocalId} {v : Option V} {x : LocalId}
    (same : (target = some x ∧ v.isSome) ∨ other x = env x) :
    other.define target v x = env.define target v x := by
  cases target with
  | none =>
    rcases same with ⟨contrary, -⟩ | same
    · cases contrary
    · exact same
  | some l =>
    cases v with
    | none =>
      rcases same with ⟨-, contrary⟩ | same
      · cases contrary
      · exact same
    | some v =>
      show (if x = l then some v else other x) = if x = l then some v else env x
      split
      · rfl
      next different =>
        rcases same with ⟨here, -⟩ | same
        · exact absurd (Option.some.inj here).symm different
        · exact same

theorem Env.define_of_ne {env : Env V} {target : Option LocalId} {x : LocalId}
    (other : target ≠ some x) (v : Option V) : env.define target v x = env x := by
  cases target with
  | none => rfl
  | some l =>
    cases v with
    | none => rfl
    | some v =>
      refine if_neg ?_
      rintro rfl
      exact other rfl

/-- A statement was carried out when an operand threw, or when it did with the values of its operands
what it does with values. -/
theorem Action.carryOut_cases {a : Action} {env after : Env V} {caught : Option V}
    {history last : History V} {move : Move V}
    (done : a.carryOut w env caught history = some (last, after, move)) :
    (∃ x, evaluateAll w env caught history a.inputs = some (last, .error x) ∧ after = env ∧
      move = .raise x) ∨
    ∃ middle values v, evaluateAll w env caught history a.inputs = some (middle, .ok values) ∧
      a.conclude w middle values = (last, v, move) ∧ after = env.define a.defines? v := by
  unfold carryOut at done
  rcases values : evaluateAll w env caught history a.inputs with _ | ⟨middle, x | vs⟩
  · rw [values] at done
    cases done
  · rw [values] at done
    cases done
    exact .inl ⟨x, rfl, rfl, rfl⟩
  · rw [values] at done
    rcases concluded : a.conclude w middle vs with ⟨history, v, move⟩
    simp only [concluded] at done
    cases done
    exact .inr ⟨middle, vs, v, rfl, concluded, rfl⟩

/-- Statements whose operands evaluate alike do the same. -/
theorem Action.carryOut_transfer {a b : Action} (single : a.isPhi = false) {env other after : Env V}
    {caught received : Option V} {history before last : History V} {move : Move V}
    (done : a.carryOut w env caught history = some (last, after, move))
    (evaluates : ∀ r, evaluateAll w env caught history a.inputs = some r →
      evaluateAll w other received before b.inputs = some r)
    (concludes : ∀ history values, b.conclude w history values = a.conclude w history values)
    (defines : b.defines? = a.defines?) :
    ∃ v, after = env.define a.defines? v ∧
      b.carryOut w other received before = some (last, other.define a.defines? v, move) ∧
      (move = .next → ∀ l, a.defines? = some l → v.isSome) := by
  unfold carryOut
  rcases carryOut_cases done with ⟨x, failed, rfl, rfl⟩ | ⟨middle, vs, v, values, concluded, rfl⟩
  · rw [evaluates _ failed]
    refine ⟨none, ?_, ?_, fun contrary => nomatch contrary⟩
    · cases a.defines? <;> rfl
    · cases a.defines? <;> rfl
  · rw [evaluates _ values]
    refine ⟨v, rfl, ?_, ?_⟩
    · simp only [concludes, concluded, defines]
    · rintro rfl l own
      have spec := a.conclude_spec (w := w) middle (length_of_evaluateAll values)
      rw [concluded] at spec
      exact spec.2 l own single

end DexLift.Ir
