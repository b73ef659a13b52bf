import DexLift.Proofs.Simplify.NullAccess
import DexLift.Proofs.Simplify.Zeros

/-!
# Splitting zeros and replacing accesses through null keep what a method does

Zeros are one value, whatever they are read as, and who reaches through it throws. So a reader may
get a zero of its own, and a statement that cannot but reach through null may throw the exception at
once, unless it asks for something else before it does so. Statements whose operands are locals and
constants do not: such a statement has at most one thing to ask for.
-/

namespace DexLift.Ir

open List

/-! ## Statements with simple operands -/

/-- A read of a local, or a constant. -/
def Expr.isAtom (e : Expr) : Bool := (e.local?.isSome || e.isConst) && e.args.isEmpty

theorem Expr.evalOrder_of_isAtom {e : Expr} (atom : e.isAtom = true) :
    e.evalOrder = [e] ∧ e.nodes = [e] ∧ e.head.throws = false := by
  obtain ⟨head, args⟩ := e
  rw [isAtom, Bool.and_eq_true, List.isEmpty_iff] at atom
  obtain ⟨kind, rfl : args = []⟩ := atom
  cases head with
  | read | const => exact ⟨rfl, rfl, rfl⟩
  | _ => cases kind

namespace Action

/-- The operands of what a statement evaluates and does are atoms. -/
def IsFlat : Action → Prop
  | .assign _ e | .identity _ e | .void e => ∀ arg ∈ e.args, arg.isAtom = true
  | a => ∀ e ∈ a.inputs, e.isAtom = true

def AsksOnAtoms (a : Action) : Prop :=
  ∀ e ∈ a.operands, ∀ node ∈ e.nodes, (node.head.throws || node.head.hasEffects) = true →
    ∀ arg ∈ node.args, arg.isAtom = true

instance : (a : Action) → Decidable a.IsFlat
  | .assign _ e | .identity _ e | .void e =>
    inferInstanceAs (Decidable (∀ arg ∈ e.args, arg.isAtom = true))
  | .label _ | .phi .. | .store .. | .fillArray .. | .branch .. | .goto _ | .switch .. | .return _
  | .throw _ | .nop | .monitorEnter _ | .monitorExit _ =>
    inferInstanceAs (Decidable (∀ e ∈ Action.inputs _, e.isAtom = true))

instance (a : Action) : Decidable a.AsksOnAtoms := by
  unfold AsksOnAtoms
  infer_instance

theorem find?_of_atoms {es : List Expr} (atoms : ∀ e ∈ es, e.isAtom = true) :
    (es.flatMap Expr.evalOrder).find? (fun node => node.head.throws) = none := by
  refine find?_eq_none.mpr fun node listed => ?_
  obtain ⟨e, member, here⟩ := mem_flatMap.mp listed
  obtain ⟨order, -, quiet⟩ := Expr.evalOrder_of_isAtom (atoms e member)
  rw [order] at here
  rw [mem_singleton.mp here, quiet]
  exact Bool.false_ne_true

theorem Proper.faultsFirst {a : Action} (proper : a.Proper) (flat : a.IsFlat) : a.FaultsFirst := by
  intro reaches node first
  rw [Option.mem_def, proper.find?_evalOrder] at first
  have single : ∀ e : Expr, e.Proper → (∀ arg ∈ e.args, arg.isAtom = true) →
      e.evalOrder.find? (fun node => node.head.throws) = some node →
      e.nodes.any Expr.reachesNull = true → node.reachesNull = true := by
    intro e proper atoms first inside
    cases proper with
    | @leaf head isLeaf =>
      cases head with
      | missing | read | caught | this | param => cases first
      | _ => cases isLeaf
    | @inner head args inner =>
      have none : (args.flatMap Expr.evalOrder).find? (fun node => node.head.throws) = none :=
        find?_of_atoms atoms
      rw [Expr.evalOrder, Expr.evalOrderOf_eq, find?_append,
        none, Option.none_or, find?_singleton] at first
      split at first
      · cases first
        rw [Expr.nodes_inner inner, any_cons, Bool.or_eq_true] at inside
        refine inside.resolve_right fun below => ?_
        obtain ⟨other, listed, isReaching⟩ := any_eq_true.mp below
        obtain ⟨arg, member, here⟩ := mem_flatMap.mp listed
        obtain ⟨-, nodes, quiet⟩ := Expr.evalOrder_of_isAtom (atoms arg member)
        rw [nodes] at here
        rw [mem_singleton.mp here] at isReaching
        rw [Expr.throws_of_reachesNull isReaching] at quiet
        cases quiet
      · cases first
  cases a with
  | assign target e | identity target e | void e =>
    have inside : e.nodes.any Expr.reachesNull = true := by
      unfold reachesNull at reaches
      cases missing : e.isMissing <;> simp_all [operands, value?]
    rw [show (_ : Action).inputs = [e] from rfl, flatMap_singleton] at first
    exact single e (proper e mem_cons_self) flat first inside
  | label | phi | goto | nop => cases reaches
  | _ =>
    have none := find?_of_atoms flat
    rw [first] at none
    cases none

end Action

/-! ## Both passes -/

/-- Two states, each in its method, that have come to the same statement. The same requests have been
made and answered, the same exception is at hand, and what is set in the first is set to the same in
the second. -/
structure State.Carried {V : Type} (m n : Method) (s t : State V) : Prop where
  statement : n.order.toList[t.position]? = m.order.toList[s.position]?
  history : t.history = s.history
  caught : t.caught = s.caught
  env : ∀ x v, s.env x = some v → t.env x = some v

theorem State.Supplied.carried {V : Type} {null : V} {m n : Method} {more : StmtId → List StmtId}
    {fills : LocalId → LocalId → Prop} (supplies : m.Supplies n more fills) {s t : State V}
    (related : s.Supplied null m n more fills t) : s.Carried m n t where
  statement := by
    rw [related.position, supplies.order]
    cases here : m.order.toList[s.position]? with
    | some id => exact getElem?_place here
    | none => exact getElem?_place_of_length_le (getElem?_eq_none_iff.mp here)
  history := related.history
  caught := related.caught
  env := related.env.same

namespace Method

/-- Splitting zeros, and replacing accesses through a constant null by throws, keep what a method
does, in every world in which zeros are one value and who reaches through it throws. The run of the
method with its zeros split comes to the same statements with the same requests made on the same
values, and returns the same or throws the same; each reader that wants a zero as a kind reads the
zero of this kind, unless joins read the zero too and it is wanted as one kind only. The run of the
method with the throws keeps step: it stands at the same position with the same values, and the same
requests have got to the world; so what reached through null throws where it did, into the same
handler. Nothing but such an access may throw first in a statement that is replaced. -/
theorem zeros_and_throws_keep_runs (m : Method) (inSsa : m.InSsa) :
    m.KindsMet m.splitZeroConstants (readZero m.zeroPlan) ∧
    ∀ {V : Type} [DecidableEq V] (w : World V) (null : V),
      (∃ pace : Nat → Nat, StrictMono pace ∧ ∀ k,
        Beside (State.Carried m m.splitZeroConstants) (m.run (w.guarded null) k)
          (m.splitZeroConstants.run (w.guarded null) (pace k))) ∧
      ((∀ a ∈ m.actions, a.FaultsFirst) → ∀ k,
        KeepStep w null (State.InStep w null) (m.run (w.guarded null) k)
          (m.replaceNullAccess.1.run (w.guarded null) k)) := by
  refine ⟨inSsa.kindsMet_splitZeroConstants, fun w null => ⟨?_, fun first k => ?_⟩⟩
  · obtain ⟨more, state⟩ := inSsa.zerosPut
    have supplies := inSsa.supplies_splitZeroConstants state
    have zeros : (w.guarded null).HasZero null := fun _ operands zero =>
      World.value_guarded zero operands
    obtain ⟨pace, rises, beside⟩ := supplies.beside inSsa zeros
      (inSsa.sameWork_splitZeroConstants state zeros)
    exact ⟨pace, rises, fun k => (beside k).mono fun s t related => related.carried supplies⟩
  · exact (inSsa.tidy.faults_replaceNullAccess.inStep inSsa.tidy inSsa.proper inSsa.whole first
      k).mono fun s t related => related.toInStep

/-- Passes a zero on as a number and as a reference, and then reads a field of null inside a trap; the
handler returns what the first call gave. -/
def defaulting : Method :=
  let call (name : Text) (param : Text) (result : Text) : Expr :=
    .node (.invoke .static ⟨"La;", name, ⟨[param], result⟩⟩) [.read 0]
  { owner := "La;", name := "m", desc := "()I", access := ⟨8⟩, params := [], result := "I"
    locals := #[{ type := { kind := .int ||| .ref } }, { type := .int }, { type := .int },
      { type := .refTo "Ljava/lang/Throwable;" }]
    traps := [⟨.number 0, .number 1, .number 2, ∅⟩]
    stmts := #[⟨.assign 0 (.number { kind := .int ||| .ref } 0), none⟩,
      ⟨.assign 1 (call "f" "I" "I"), none⟩, ⟨.void (call "g" "Ljava/lang/Object;" "V"), none⟩,
      ⟨.label (.number 0), none⟩,
      ⟨.assign 2 (.node (.field ⟨"La;", "h", "I"⟩ false) [.null]), none⟩,
      ⟨.label (.number 1), none⟩, ⟨.return (some (.read 2)), none⟩,
      ⟨.label (.number 2), none⟩,
      ⟨.identity 3 (.leaf (.caught .object ∅)), none⟩, ⟨.return (some (.read 1)), none⟩]
    order := #[0, 1, 2, 3, 4, 5, 6, 7, 8, 9]
    placed := #[some 3, some 5, some 7] }

def defaultingNotes : Nat → Note
  | 0 => .entry
  | 1 => ⟨[0], [((.nowhere, false), [])]⟩
  | 2 | 3 | 4 => ⟨[0, 1], [((.nowhere, false), [])]⟩
  | 5 | 6 => ⟨[0, 1, 2], [((.nowhere, false), [])]⟩
  | 7 | 8 => ⟨[0, 1], [((.nowhere, true), [0, 1])]⟩
  | _ => ⟨[0, 1, 3], [((.nowhere, true), [0, 1])]⟩

/-- A world in which every request is answered by how many were made before. -/
def countingWorld : World Nat where
  value _ values := values.sum
  answer history _ _ := .ok history.length
  holds _ x y := x < y.getD 0
  key _ := 0
  takes _ _ := true
  receiver := 0
  param _ := 0

/-- The zero becomes a number, with null behind it for the second call; and the field access becomes
a throw into the handler. -/
theorem zeros_and_throws_keep_runs_defaulting :
    (defaulting.InSsa ∧ ∀ a ∈ defaulting.actions, a.FaultsFirst) ∧
    defaulting.KindsMet defaulting.splitZeroConstants (readZero defaulting.zeroPlan) ∧
    (∃ pace : Nat → Nat, StrictMono pace ∧ ∀ k,
      Beside (State.Carried defaulting defaulting.splitZeroConstants)
        (defaulting.run (countingWorld.guarded 0) k)
        (defaulting.splitZeroConstants.run (countingWorld.guarded 0) (pace k))) ∧
    ∀ k, KeepStep countingWorld 0 (State.InStep countingWorld 0)
      (defaulting.run (countingWorld.guarded 0) k)
      (defaulting.replaceNullAccess.1.run (countingWorld.guarded 0) k) := by
  have noted : defaulting.Noted defaultingNotes := by with_unfolding_all decide
  have inSsa : defaulting.InSsa := noted.inSsa (by decide) (by decide)
    (by decide) (by decide) (by decide)
  have flat : ∀ a ∈ defaulting.actions, a.IsFlat := by decide
  have first : ∀ a ∈ defaulting.actions, a.FaultsFirst := fun a listed =>
    (inSsa.proper.operands a listed).faultsFirst (flat a listed)
  obtain ⟨kinds, runs⟩ := zeros_and_throws_keep_runs defaulting inSsa
  obtain ⟨zeros, throws⟩ := runs countingWorld 0
  exact ⟨⟨inSsa, first⟩, kinds, zeros, throws first⟩

def collecting : Method :=
  let sum : Expr := .binary .add .int (.node (.invoke .static ⟨"La;", "f", ⟨[], "I"⟩⟩) [])
    (.node (.field ⟨"La;", "h", "I"⟩ false) [.null])
  { owner := "La;", name := "m", desc := "()I", access := ⟨8⟩, params := [], result := "I"
    locals := #[{ type := .int }]
    stmts := #[⟨.assign 0 sum, none⟩, ⟨.return (some (.read 0)), none⟩]
    order := #[0, 1]
    placed := #[] }

/-- A call that comes before the access is lost, although the operands of what can throw or has
effects are locals and constants: the sum is neither, and has two operands that are. -/
theorem replaceNullAccess_collecting :
    (collecting.InSsa ∧ ∀ a ∈ collecting.actions, a.AsksOnAtoms) ∧
      ¬ ∀ k, KeepStep countingWorld 0 (State.InStep countingWorld 0)
        (collecting.run (countingWorld.guarded 0) k)
        (collecting.replaceNullAccess.1.run (countingWorld.guarded 0) k) := by
  have noted : collecting.Noted fun position =>
      ⟨range (min 1 position), [((.nowhere, false), [])]⟩ := by decide
  have inSsa : collecting.InSsa := noted.inSsa (by decide) (by decide)
    (by decide) (by decide) (by decide)
  refine ⟨⟨inSsa, by decide⟩, fun keep => ?_⟩
  have ended : (collecting.run (countingWorld.guarded 0) 1).seen State.history = .uncaught 2
      [⟨.evaluate (.field ⟨"La;", "h", "I"⟩ false), [0], .error 2⟩,
        ⟨.evaluate (.invoke .static ⟨"La;", "f", ⟨[], "I"⟩⟩), [], .ok 0⟩] := by
    decide
  have endedThere : (collecting.replaceNullAccess.1.run (countingWorld.guarded 0) 1).seen
      State.history = .uncaught 1 [⟨.throw, [0], .ok 1⟩,
        ⟨.evaluate newNullPointer.head, [], .ok 0⟩] := by
    with_unfolding_all decide
  cases ((keep 1).uncaught_eq ended endedThere).1

end Method

end DexLift.Ir
