import DexLift.Proofs.Simplify.Supplying

/-!
# Reading other locals where an operand is wanted

A pass that looks at what is expected of an operand may let it read another local. Nothing else of a
statement changes: it has the same place in the flow of control, evaluates as many operands as
before and does the same with their values. It evaluates them to the same values where the other
local fills in for the one that was read.
-/

namespace DexLift.Ir.Method

open List

/-! ## What operands turn into -/

section Turning

variable {m : Method} {change : Expr → Ty → Expr} {a : Action} {e after : Expr}

/-- What an expression may turn into: it stays, or its operands are changed, and then it may be
changed itself. -/
def Turns (m : Method) (change : Expr → Ty → Expr) (e after : Expr) : Prop :=
  after = e ∨ after = m.mapOperandsIn change e ∨ ∃ want, after = change (m.mapOperandsIn change e) want

theorem mapOperandsIn_node (head : Head) (args : List Expr) :
    m.mapOperandsIn change (.node head args) =
      .node head (m.mapOperandsOf change (m.expected (.node head args)) args) := by
  rw [mapOperandsIn]

@[simp] theorem mapOperandsIn_leaf (head : Head) :
    m.mapOperandsIn change (.leaf head) = .leaf head := by
  rw [Expr.leaf, mapOperandsIn_node]
  cases m.expected (.node head []) with
  | nil => rfl
  | cons want wants => cases want <;> rfl

theorem turns_mapOperandsOf (wants : List (Option Ty)) (es : List Expr) :
    Forall₂ (m.Turns change) es (m.mapOperandsOf change wants es) := by
  induction es generalizing wants with
  | nil =>
    cases wants with
    | nil => exact .nil
    | cons want wants => cases want <;> exact .nil
  | cons e rest ih =>
    cases wants with
    | nil => exact forall₂_same.mpr fun _ _ => .inl rfl
    | cons want wants =>
      cases want with
      | none => exact .cons (.inl rfl) (ih wants)
      | some want => exact .cons (.inr (.inr ⟨want, rfl⟩)) (ih wants)

theorem turns_args (e : Expr) :
    Forall₂ (m.Turns change) e.args (m.mapOperandsIn change e).args := by
  obtain ⟨head, args⟩ := e
  rw [mapOperandsIn_node]
  exact turns_mapOperandsOf _ args

theorem mapOperands_store (m : Method) (change : Expr → Ty → Expr) (place value : Expr) :
    ∃ other stored, m.mapOperands change (.store place value) = .store other stored := by
  unfold mapOperands
  dsimp only
  cases m.storedType place with
  | none => exact ⟨place, value, rfl⟩
  | some want => exact ⟨_, _, rfl⟩

@[simp] theorem label?_mapOperands (a : Action) : (m.mapOperands change a).label? = a.label? := by
  cases a with
  | store place value =>
    obtain ⟨_, _, same⟩ := mapOperands_store m change place value
    rw [same]
    rfl
  | _ => rfl

theorem turns_parts (a : Action) :
    Forall₂ (m.Turns change) a.parts (m.mapOperands change a).parts := by
  have own : ∀ e, m.Turns change e (m.mapOperandsIn change e) := fun _ => .inr (.inl rfl)
  have wanted : ∀ e want, m.Turns change e (change (m.mapOperandsIn change e) want) :=
    fun _ want => .inr (.inr ⟨want, rfl⟩)
  cases a with
  | label | phi | goto | nop => exact .nil
  | assign _ value | identity _ value | void value => exact .cons (own value) .nil
  | fillArray e | monitorEnter e | monitorExit e | «switch» e | throw e =>
    exact .cons (wanted e _) .nil
  | store place value =>
    unfold mapOperands
    dsimp only
    cases m.storedType place with
    | none => exact forall₂_same.mpr fun _ _ => .inl rfl
    | some want => exact .cons (own place) (.cons (wanted value want) .nil)
  | branch cond left right =>
    cases right with
    | none => exact .cons (wanted left _) .nil
    | some right => exact .cons (wanted left _) (.cons (wanted right _) .nil)
  | «return» value =>
    cases value with
    | none => exact .nil
    | some value => exact .cons (wanted value _) .nil

theorem turns_inputs (a : Action) :
    Forall₂ (m.Turns change) a.inputs (m.mapOperands change a).inputs := by
  have parts : Forall₂ (m.Turns change) a.parts _ := turns_parts a
  cases a with
  | store place value =>
    unfold mapOperands at parts ⊢
    dsimp only at parts ⊢
    cases found : m.storedType place with
    | none => exact forall₂_same.mpr fun _ _ => .inl rfl
    | some want =>
      exact rel_append (turns_args place) (.cons (.inr (.inr ⟨want, rfl⟩)) .nil)
  | _ => exact parts

theorem conclude_mapOperands {V : Type} {w : World V} (a : Action) (history : History V)
    (values : List V) :
    (m.mapOperands change a).conclude w history values = a.conclude w history values := by
  cases a with
  | store place value =>
    obtain ⟨head, args⟩ := place
    unfold mapOperands
    dsimp only
    cases m.storedType (.node head args) with
    | none => rfl
    | some want =>
      rw [mapOperandsIn_node]
      rfl
  | assign | identity | «switch» => cases values <;> rfl
  | _ => rfl

end Turning

/-! ## Other locals in the place of some -/

def Redirects (change : Expr → Ty → Expr) (fills : LocalId → LocalId → Prop) : Prop :=
  ∀ e want, change e want = e ∨ ∃ x y, e.local? = some x ∧ fills x y ∧ change e want = .read y

section Redirecting

variable {m : Method} {change : Expr → Ty → Expr} {fills : LocalId → LocalId → Prop}
  (redirects : Redirects change fills)

include redirects

theorem Redirects.canThrow {e after : Expr} (own : (m.mapOperandsIn change e).canThrow = true →
    e.canThrow = true) (turns : m.Turns change e after) (throws : after.canThrow = true) :
    e.canThrow = true := by
  rcases turns with rfl | rfl | ⟨want, rfl⟩
  · exact throws
  · exact own throws
  · rcases redirects (m.mapOperandsIn change e) want with same | ⟨x, y, -, -, reads⟩
    · exact own (same ▸ throws)
    · rw [reads] at throws
      cases throws

theorem Redirects.any_canThrow {es others : List Expr}
    (own : ∀ e ∈ es, (m.mapOperandsIn change e).canThrow = true → e.canThrow = true)
    (turns : Forall₂ (m.Turns change) es others) (throws : others.any Expr.canThrow = true) :
    es.any Expr.canThrow = true := by
  induction turns with
  | nil => exact throws
  | cons first _ ih =>
    rw [any_cons, Bool.or_eq_true] at throws ⊢
    exact throws.imp (redirects.canThrow (own _ mem_cons_self) first)
      (ih fun e member => own e (.tail _ member))

theorem Redirects.canThrow_mapOperandsIn {e : Expr} (proper : e.Proper)
    (throws : (m.mapOperandsIn change e).canThrow = true) : e.canThrow = true := by
  induction proper with
  | leaf => rwa [mapOperandsIn_leaf] at throws
  | @inner head args inner _ ih =>
    rw [mapOperandsIn_node, Expr.canThrow_inner inner, Bool.or_eq_true] at throws
    rw [Expr.canThrow_inner inner, Bool.or_eq_true]
    exact throws.imp_right (redirects.any_canThrow ih (turns_mapOperandsOf _ args))

theorem Redirects.sameForm {a : Action} (proper : a.Proper) :
    a.SameForm (m.mapOperands change a) := by
  have throws : (m.mapOperands change a).canThrow = true → a.canThrow = true := by
    intro throws
    cases reader : a.isReader with
    | false => cases a <;> first | exact throws | cases reader
    | true =>
      have kept : (m.mapOperands change a).isReader = true ∧
          (m.mapOperands change a).demands = a.demands := by
        cases a with
        | store place value =>
          obtain ⟨_, _, same⟩ := mapOperands_store m change place value
          rw [same]
          exact ⟨rfl, rfl⟩
        | _ => exact ⟨reader, rfl⟩
      rw [Action.canThrow_eq kept.1, kept.2, Bool.or_eq_true] at throws
      rw [Action.canThrow_eq reader, Bool.or_eq_true]
      exact throws.imp_right (redirects.any_canThrow
        (fun e member => redirects.canThrow_mapOperandsIn (proper e member)) (turns_parts a))
  cases a with
  | store place value =>
    obtain ⟨_, _, same⟩ := mapOperands_store m change place value
    rw [same]
    exact ⟨rfl, rfl, rfl, rfl, rfl, rfl, fun _ => rfl, rfl⟩
  | _ => exact ⟨rfl, rfl, rfl, rfl, rfl, rfl, throws, rfl⟩

section Values

variable {V : Type} {w : World V} {null : V} {env other : Env V} {caught : Option V}
  {history : History V} (supplied : Env.Supplied null m fills env other)

include supplied

theorem Redirects.evaluate {e after : Expr} (proper : e.Proper)
    (own : ∀ history r, Ir.evaluate w env caught history e = some r →
      Ir.evaluate w other caught history (m.mapOperandsIn change e) = some r)
    (turns : m.Turns change e after) {r : History V × Except V V}
    (done : Ir.evaluate w env caught history e = some r) :
    Ir.evaluate w other caught history after = some r := by
  rcases turns with rfl | rfl | ⟨want, rfl⟩
  · exact proper.evaluate_mono (fun x _ v => supplied.same x v) (fun _ _ => id) done
  · exact own _ _ done
  · rcases redirects (m.mapOperandsIn change e) want with same | ⟨x, y, read, fill, reads⟩
    · rw [same]
      exact own _ _ done
    · obtain ⟨head, args⟩ := e
      rw [mapOperandsIn_node] at read
      cases head with
      | read z =>
        obtain rfl : z = x := Option.some.inj read
        rw [Ir.evaluate, Option.map_eq_some_iff] at done
        obtain ⟨v, set, rfl⟩ := done
        obtain ⟨rfl, filled⟩ := supplied.filled z y v fill set
        rw [reads, Expr.read, Expr.leaf, Ir.evaluate, filled]
        rfl
      | _ => cases read

theorem Redirects.evaluateAll {es others : List Expr} (proper : ∀ e ∈ es, e.Proper)
    (own : ∀ e ∈ es, ∀ history r, Ir.evaluate w env caught history e = some r →
      Ir.evaluate w other caught history (m.mapOperandsIn change e) = some r)
    (turns : Forall₂ (m.Turns change) es others) {r : History V × Except V (List V)}
    (done : Ir.evaluateAll w env caught history es = some r) :
    Ir.evaluateAll w other caught history others = some r := by
  induction turns generalizing history r with
  | nil => exact done
  | cons first _ ih =>
    rw [evaluateAll_cons] at done ⊢
    refine andThen_mono done (fun r => redirects.evaluate supplied (proper _ mem_cons_self)
      (own _ mem_cons_self) first) fun history v r done => ?_
    exact andThen_mono done (fun r => ih (fun e member => proper e (.tail _ member))
      fun e member => own e (.tail _ member)) fun _ _ _ done => done

theorem Redirects.evaluate_mapOperandsIn {e : Expr} (proper : e.Proper)
    {r : History V × Except V V} (done : Ir.evaluate w env caught history e = some r) :
    Ir.evaluate w other caught history (m.mapOperandsIn change e) = some r := by
  induction proper generalizing history r with
  | leaf isLeaf =>
    rw [mapOperandsIn_leaf]
    exact (Expr.Proper.leaf isLeaf).evaluate_mono (fun x _ v => supplied.same x v) (fun _ _ => id)
      done
  | @inner head args inner proper ih =>
    rw [mapOperandsIn_node]
    rw [evaluate_inner inner] at done ⊢
    refine andThen_mono done (fun r => ?_) fun _ _ _ done => done
    exact redirects.evaluateAll supplied proper
      (fun e member history r => ih e member) (turns_mapOperandsOf _ args)

theorem Redirects.evaluate_inputs {a : Action} (proper : a.Proper)
    {r : History V × Except V (List V)}
    (done : Ir.evaluateAll w env caught history a.inputs = some r) :
    Ir.evaluateAll w other caught history (m.mapOperands change a).inputs = some r :=
  redirects.evaluateAll supplied proper.inputs_proper
    (fun e member _ _ => redirects.evaluate_mapOperandsIn supplied (proper.inputs_proper e member))
    (turns_inputs a) done

end Values

end Redirecting

end DexLift.Ir.Method
