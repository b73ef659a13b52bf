import DexLift.Proofs.Ir.Walking
import DexLift.Proofs.Lower.Agreement
import DexLift.Proofs.Lower.Positions

/-!
# Entering a block

A run that comes to the label of a block along one of the ways in goes through
the joins of the block. If the locals agreed with the registers along the way,
they agree behind the joins with what the block is entered with: a join that
stays takes over the value, one that was replaced stands for a local that no join
of the block sets, and one that was dropped is read by nobody.
-/

namespace DexLift.Lower

open Ir Dalvik List

variable {V : Type} {file : Dex.File} {ref : MethodRef} {isStatic : Bool} {code : Dex.Code}
  {m : Ir.Method} {s : Shape}

theorem known_of_mem {k : Nat} (listed : k ∈ s.layout) (exceptional : Bool) :
    Known s.done ⟨some k, exceptional⟩ := by
  intro source same
  cases same
  exact (mem_filter.mp listed).2

namespace Lowered

variable (lowered : Lowered file ref isStatic code m s)

include lowered

theorem along_eq {k : Nat} (listed : k ∈ s.layout) (exceptional : Bool) :
    s.along ⟨some k, exceptional⟩ =
      if exceptional then (s.piece k).followed.beforeThrow else (s.piece k).followed.out := by
  have followed := (lowered.reached k listed).followed
  unfold followed? at followed
  simp only [Shape.along, registersAlong, followed]

theorem kept_of_mem {k r : Nat} (listed : k ∈ s.layout) (join : r ∈ (s.piece k).joins) :
    (s.plan.block k).isJoin = true ∧ r < s.count ∧
      s.verdict.resolve ((s.piece k).low + r) = (s.piece k).low + r ∧
      ∀ e ∈ (s.plan.block k).preds, Known s.done e → ∃ l, (s.along e).getD r none = some l ∧
        s.verdict.Whole l ∧ operandOf s.plan s.entry e l ∈ s.operands k r := by
  have reached := lowered.reached k listed
  have bound : r < s.count := mem_range.mp (reached.registers.subset join)
  cases isJoin : (s.plan.block k).isJoin with
  | false =>
    rw [(reached.single isJoin).1] at join
    cases join
  | true =>
    cases (reached.several isJoin).2 r bound with
    | dropped _ out | replaced _ _ out _ => exact absurd join out
    | kept _ ways _ fixed => exact ⟨rfl, bound, fixed, ways⟩

theorem incoming_eq {k r : Nat} (listed : k ∈ s.layout) (join : r ∈ (s.piece k).joins) {e : Edge}
    (edge : e ∈ (s.plan.block k).preds) (known : Known s.done e) {l : LocalId}
    (held : (s.along e).getD r none = some l) (entering : Env V) :
    Ir.State.incoming (sourceLabel s.plan s.entry e, e.exceptional) entering
        ((s.operands k r).map fun a => { a with value := s.verdict.resolve a.value }) =
      entering (s.verdict.resolve l) := by
  obtain ⟨-, -, -, ways⟩ := lowered.kept_of_mem listed join
  obtain ⟨other, heldOther, -, operand⟩ := ways e edge known
  have same : other = l := Option.some.inj (heldOther.symm.trans held)
  subst same
  -- An operand with the same label and kind comes from the same edge, hence from the same local.
  have unique : ∀ a ∈ s.operands k r, a.pred = sourceLabel s.plan s.entry e →
      a.exceptional = e.exceptional → a.value = other := by
    intro a member pred kind
    obtain ⟨from_, -, knownFrom, value, heldFrom, rfl⟩ := (phiOperands_spec _ _ _ _ _).1 a member
    have source := lowered.source_injective knownFrom known pred
    have edges : from_ = e := by
      obtain ⟨first, firstKind⟩ := from_
      obtain ⟨second, secondKind⟩ := e
      cases source
      cases kind
      rfl
    subst edges
    exact Option.some.inj (heldFrom.symm.trans held)
  unfold Ir.State.incoming
  rw [find?_map]
  cases found : (s.operands k r).find? ((fun a : PhiArg =>
      a.pred == (sourceLabel s.plan s.entry e, e.exceptional).1 &&
        a.exceptional == (sourceLabel s.plan s.entry e, e.exceptional).2) ∘
      fun a => { a with value := s.verdict.resolve a.value }) with
  | none =>
    have absent := find?_eq_none.mp found _ operand
    simp [operandOf] at absent
  | some a =>
    have matching := find?_some found
    simp only [Function.comp_apply, Bool.and_eq_true, beq_iff_eq] at matching
    have value := unique a (mem_of_find?_eq_some found) matching.1 matching.2
    simp [value]

theorem enter (w : World V) {k : Nat} (listed : k ∈ s.layout) {e : Edge}
    (edge : e ∈ (s.plan.block k).preds) (known : Known s.done e) {values : RegisterFile V}
    {i : Ir.State V} (position : i.position = s.header k)
    (arrived : i.Arrived m (sourceLabel s.plan s.entry e) e.exceptional)
    (agrees : Agrees s.verdict (s.along e) values i.env) :
    ∃ (t : Ir.State V) (count : Nat), Leads w m (count + 1) (.running i) (.running t) ∧
      t.Stands m (.number k) false ((s.piece k).body ++ s.after k) ∧ t.position = s.bodyAt k ∧
      Agrees s.verdict (s.piece k).into values t.env ∧
      t.caught = i.caught ∧ t.history = i.history := by
  have reached := lowered.reached k listed
  have here := lowered.from_header listed
  rw [← position] at here
  obtain ⟨step, stands⟩ := Ir.State.stands_of_header w here
  have target : (s.piece k).joins.map (s.phi k) = (s.piece k).joins.map fun r =>
      Action.phi ((s.piece k).low + r)
        ((s.operands k r).map fun a => { a with value := s.verdict.resolve a.value }) := rfl
  rw [target] at stands
  have sees : (s.piece k).joins ≠ [] →
      (i.goTo m (i.position + 1) false).origin =
          (sourceLabel s.plan s.entry e, e.exceptional) ∧
        (i.goTo m (i.position + 1) false).entering = i.env := by
    intro stay
    obtain ⟨r, others, joins⟩ := exists_cons_of_ne_nil stay
    have join : r ∈ (s.piece k).joins := by simp [joins]
    obtain ⟨-, -, -, ways⟩ := lowered.kept_of_mem listed join
    obtain ⟨l, -, -, operand⟩ := ways e edge known
    obtain ⟨entering, kind, source⟩ := arrived _ here.get (lowered.opens_of_joins listed stay)
    have opens := lowered.opens_of_operand listed join operand
    have next : m.actions[i.position + 1]? = some (s.phi k r) := by
      have there := here.next
      rw [joins] at there
      exact there.get
    rw [i.goTo_of_plain next rfl]
    exact ⟨Prod.ext (source opens) kind, entering⟩
  have reads : ∀ r ∈ (s.piece k).joins, ∃ l x, (s.along e).getD r none = some l ∧
      Ir.State.incoming (sourceLabel s.plan s.entry e, e.exceptional) i.env
        ((s.operands k r).map fun a => { a with value := s.verdict.resolve a.value }) = some x ∧
      ∀ y, values.read r = some y → y = x := by
    intro r join
    obtain ⟨-, -, -, ways⟩ := lowered.kept_of_mem listed join
    obtain ⟨l, held, whole, -⟩ := ways e edge known
    obtain ⟨x, set, only⟩ := agrees r l held whole
    exact ⟨l, x, held, by rw [lowered.incoming_eq listed join edge known held, set], only⟩
  have distinct : ((s.piece k).joins.map fun r => (s.piece k).low + r).Nodup :=
    (reached.registers.nodup nodup_range).map fun _ _ => Nat.add_left_cancel
  obtain ⟨t, leads, there, place, joined, others, caught, history⟩ :=
    stands.throughJoins w sees
      (fun r join => by obtain ⟨-, x, -, found, -⟩ := reads r join; exact ⟨x, found⟩) distinct
  refine ⟨t, (s.piece k).joins.length, ?_, there, ?_, ?_, ?_, ?_⟩
  · rw [Nat.add_comm]
    exact (Leads.one step).trans leads
  · rw [place, Ir.State.goTo_position, position]
    rfl
  · intro r l held whole
    cases isJoin : (s.plan.block k).isJoin with
    | false =>
      obtain ⟨none, only, preds, -, into⟩ := reached.single isJoin
      rw [preds, mem_singleton] at edge
      subst edge
      rw [into] at held
      rw [others _ (by simp [none]), Ir.State.goTo_env]
      exact agrees r l held whole
    | true =>
      obtain ⟨into, decided⟩ := reached.several isJoin
      rw [into, countingFrom_getD] at held
      split at held
      next bound =>
        cases held
        cases decided r bound with
        | dropped gone _ => exact absurd whole gone
        | kept _ _ stays fixed =>
          obtain ⟨-, x, -, found, only⟩ := reads r stays
          exact ⟨x, by rw [fixed, joined r stays, found], only⟩
        | replaced _ ways _ smaller =>
          obtain ⟨l, heldAlong, wholeAlong, same⟩ := ways e edge known
          obtain ⟨x, set, only⟩ := agrees r l heldAlong wholeAlong
          refine ⟨x, ?_, only⟩
          rw [← same, others, Ir.State.goTo_env, set]
          rw [same]
          intro member
          obtain ⟨other, -, equal⟩ := mem_map.mp member
          exact absurd smaller (by rw [← equal]; exact Nat.not_lt.mpr (Nat.le_add_right _ _))
      · cases held
  · rw [caught, Ir.State.goTo_caught]
  · rw [history, Ir.State.goTo_history]

end Lowered

end DexLift.Lower
