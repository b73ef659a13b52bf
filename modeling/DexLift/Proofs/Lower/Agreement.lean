import DexLift.Proofs.Lower.Layout

/-!
# Locals that agree with registers

The locals of a lowered method agree with a register file when every local that a
register holds is set, to the value of the register if it has one. A local may be
set where the register has no value, as the upper half of a wide pair; it is
never the other way around for a local that is read.

An emitted statement does to locals what its operation does to registers: it
makes the same request on the same values, goes the same way, and the locals
agree again.
-/

namespace DexLift.Lower

open Ir Dalvik List

variable {l new : LocalId} {e : Expr} {args : List Expr} {head : Head} {a : Action}

variable {V : Type} {w : World V}

/-- Every local that a register holds is set, to the value of the register if it has one. -/
def Agrees (v : Verdict) (regs : Registers) (values : RegisterFile V) (env : Env V) : Prop :=
  ∀ r l, regs.getD r none = some l → v.Whole l →
    ∃ x, env (v.resolve l) = some x ∧ ∀ y, values.read r = some y → y = x

variable {x : V}

section Agrees

variable {v : Verdict} {regs after : Registers} {values : RegisterFile V} {env : Env V}

theorem Agrees.read (agrees : Agrees v regs values env) {r : Nat} (held : regs.getD r none = some l)
    (whole : v.Whole l) (value : values.read r = some x) : env (v.resolve l) = some x := by
  obtain ⟨y, set, only⟩ := agrees r l held whole
  rw [set, only x value]

theorem Agrees.set (agrees : Agrees v regs values env) (lawful : v.Lawful) (below : Below regs new)
    (x : V) : Agrees v regs values (env.set new x) := by
  intro r l held whole
  obtain ⟨y, isSet, only⟩ := agrees r l held whole
  have less : v.resolve l < new := lt_of_le_of_lt (lawful.le l) (below r l held)
  refine ⟨y, ?_, only⟩
  rwa [Env.set, if_neg (Nat.ne_of_lt less)]

theorem read_write_of_ne {r goal : Nat} (other : r ≠ goal) (x : V) (wide : Bool) {y : V}
    (value : (values.write goal x wide).read r = some y) : values.read r = some y := by
  unfold RegisterFile.read RegisterFile.write at value
  rw [if_neg other] at value
  split at value
  · cases value
  · split at value
    · cases value
    · exact value

theorem read_write_self (goal : Nat) (x : V) (wide : Bool) :
    (values.write goal x wide).read goal = some x := by
  simp [RegisterFile.read, RegisterFile.write]

theorem Agrees.define (agrees : Agrees v regs values env) (lawful : v.Lawful) {new : LocalId}
    (below : Below regs new) (fixed : v.resolve new = new) {goal : Nat}
    (puts : Puts regs goal (some new) after) (x : V) (wide : Bool) :
    Agrees v after (values.write goal x wide) (env.set new x) := by
  intro r l held whole
  by_cases here : r = goal
  · subst here
    rw [puts.there] at held
    cases held
    refine ⟨x, by rw [fixed, Env.set, if_pos rfl], fun y value => ?_⟩
    rw [read_write_self] at value
    exact (Option.some.inj value).symm
  · rcases puts.others r here with same | gone
    · rw [same] at held
      obtain ⟨y, isSet, only⟩ := agrees.set lawful below x r l held whole
      exact ⟨y, isSet, fun z value => only z (read_write_of_ne here x wide value)⟩
    · rw [gone] at held
      cases held

theorem Agrees.copy (agrees : Agrees v regs values env) {goal source : Nat}
    (puts : Puts regs goal (regs.getD source none) after) (value : values.read source = some x)
    (wide : Bool) : Agrees v after (values.write goal x wide) env := by
  intro r l held whole
  by_cases here : r = goal
  · subst here
    rw [puts.there] at held
    refine ⟨x, agrees.read held whole value, fun y written => ?_⟩
    rw [read_write_self] at written
    exact (Option.some.inj written).symm
  · rcases puts.others r here with same | gone
    · rw [same] at held
      obtain ⟨y, isSet, only⟩ := agrees r l held whole
      exact ⟨y, isSet, fun z written => only z (read_write_of_ne here x wide written)⟩
    · rw [gone] at held
      cases held

end Agrees

/-! ## Operands -/

variable {xs : List V}

section Operands

variable {v : Verdict} {regs : Registers} {values : RegisterFile V} {env : Env V}
  {caught : Option V} {history : History V}

theorem evaluate_read (set : env l = some x) :
    evaluate w env caught history (.read l) = some (history, .ok x) := by
  rw [Expr.read, Expr.leaf, evaluate, set]
  rfl

theorem evaluateAll_cons {rest : List Expr}
    (first : evaluate w env caught history e = some (history, .ok x))
    (others : evaluateAll w env caught history rest = some (history, .ok xs)) :
    evaluateAll w env caught history (e :: rest) = some (history, .ok (x :: xs)) := by
  rw [evaluateAll, first]
  dsimp only
  rw [others]

theorem evaluateAll_of_reads (caught : Option V) (history : History V)
    (agrees : Agrees v regs values env) {operands : List Dalvik.Operand}
    (reads : List.Forall₂ (Reads regs) operands args)
    (whole : ∀ l ∈ args.flatMap Expr.uses, v.Whole l)
    (read : operands.mapM (Dalvik.Operand.read w values) = some xs) :
    evaluateAll w env caught history (args.map v.subst.applyExpr) = some (history, .ok xs) := by
  induction reads generalizing xs with
  | nil =>
    cases read
    rfl
  | @cons operand arg operands args first rest ih =>
    rw [mapM_cons] at read
    obtain ⟨x, here, read⟩ := Option.bind_eq_some_iff.mp read
    obtain ⟨others, later, ending⟩ := Option.bind_eq_some_iff.mp read
    cases ending
    rw [flatMap_cons] at whole
    refine evaluateAll_cons ?_ (ih (fun l member => whole l (mem_append_right _ member)) later)
    cases first with
    | register held =>
      have wholeHere := whole _ (mem_append_left _ (mem_singleton_self _))
      exact evaluate_read (agrees.read held wholeHere here)
    | literal n =>
      cases here
      rfl

theorem evaluate_node (operator : operates head = true)
    (operands : evaluateAll w env caught history args = some (history, .ok xs)) :
    evaluate w env caught history (.node head args) = some (apply w history head xs) := by
  unfold evaluate
  split
  · cases operator
  · cases operator
  · cases operator
  · cases operator
  · rw [operands]
    dsimp only
    unfold apply
    split <;> rfl

end Operands

/-! ## Statements -/

/-- Where a statement goes when its operation goes somewhere. Only a switch without a matching key
leaves by a jump behind it. -/
inductive SameMove (labelOf : UInt32 → Label) (behind : Label) (op : Operation) :
    Dalvik.Move V → Ir.Move V → Prop where
  | next (goesOn : continues op = true) : SameMove labelOf behind op .next .next
  | behind (chooses : switches op = true) : SameMove labelOf behind op .next (.jump behind)
  | jump {addr : UInt32} (target : addr ∈ jumps op) :
      SameMove labelOf behind op (.jump addr) (.jump (labelOf addr))
  | raise {x : V} (throws : throws op = true) : SameMove labelOf behind op (.raise x) (.raise x)
  | finish {x : Option V} : SameMove labelOf behind op (.finish x) (.finish x)

/-- What a statement came to, beside what its operation came to. -/
structure Mirrors (labelOf : UInt32 → Label) (behind : Label) (v : Verdict) (op : Operation)
    (regs after : Registers) (before values : RegisterFile V) (move : Dalvik.Move V) (env : Env V)
    (moved : Ir.Move V) : Prop where
  moves : SameMove labelOf behind op move moved
  stays : Agrees v regs before env
  agrees : (∀ x, move ≠ .raise x) → Agrees v after values env

theorem Emits.endsBlock {labelOf : UInt32 → Label} {behind : Label} {regs after : Registers}
    {op : Operation} (emits : Emits labelOf behind new regs op (some a) after)
    (subst : Substitution) : (a.substitute subst).endsBlock = transfers op := by
  cases emits <;> rfl

variable {go : History V → V → History V × Env V × Ir.Move V}

section Performs

variable {v : Verdict} {regs after : Registers} {labelOf : UInt32 → Label} {behind : Label}
  {new : LocalId} {op : Operation} {d : Dalvik.State V} {s : Ir.State V} {history : History V}
  {values : RegisterFile V} {move : Dalvik.Move V}

theorem Mirrors.unchanged (agrees : Agrees v regs d.regs s.env) {moved : Ir.Move V}
    (moves : SameMove labelOf behind op move moved) :
    Mirrors labelOf behind v op regs regs d.regs d.regs move s.env moved :=
  ⟨moves, agrees, fun _ => agrees⟩

theorem withValue_of_ok (evaluated : evaluate w s.env s.caught s.history e = some (history, .ok x)) :
    s.withValue w e go = some (go history x) := by
  unfold Ir.State.withValue
  rw [evaluated]

theorem withValue_of_error
    (evaluated : evaluate w s.env s.caught s.history e = some (history, .error x)) :
    s.withValue w e go = some (history, s.env, .raise x) := by
  unfold Ir.State.withValue
  rw [evaluated]

theorem withValues_of_ok {es : List Expr} {go : History V → List V → History V × Env V × Ir.Move V}
    (evaluated : evaluateAll w s.env s.caught s.history es = some (history, .ok xs)) :
    s.withValues w es go = some (go history xs) := by
  unfold Ir.State.withValues
  rw [evaluated]

theorem mirrors_request (agrees : Agrees v regs d.regs s.env) (same : s.history = d.history)
    (fails : throws op = true) (goesOn : continues op = true) {request : Request}
    (evaluated : evaluateAll w s.env s.caught s.history args = some (s.history, .ok xs))
    (did : d.request w request xs = (history, values, move)) :
    ∃ env moved, s.request w args request = some (history, env, moved) ∧
      Mirrors labelOf behind v op regs regs d.regs values move env moved := by
  unfold Ir.State.request
  rw [withValues_of_ok evaluated, same]
  unfold Dalvik.State.request at did
  cases asked : w.ask d.history request xs with
  | mk later answer =>
    rw [asked] at did
    cases answer with
    | ok made =>
      cases did
      exact ⟨_, _, rfl, .unchanged agrees (.next goesOn)⟩
    | error x =>
      cases did
      exact ⟨_, _, rfl, .unchanged agrees (.raise fails)⟩

theorem throws_of_apply {before : History V}
    (applied : apply w before head xs = (history, .error x)) : head.throws = true := by
  unfold apply at applied
  split at applied
  next fails => exact fails
  · cases applied

theorem Emits.mirrors (emits : Emits labelOf behind new regs op (some a) after) (lawful : v.Lawful)
    (below : Below regs new) (agrees : Agrees v regs d.regs s.env) (same : s.history = d.history)
    (whole : ∀ l ∈ a.uses, v.Whole l) (fixed : ∀ l, a.defines? = some l → v.resolve l = l)
    (caught : (∃ goal, op = .receive goal) → ∀ x, d.caught = some x → s.caught = some x)
    (performs : d.perform w op = some (history, values, move)) :
    ∃ env moved, s.perform w (a.substitute v.subst) = some (history, env, moved) ∧
      Mirrors labelOf behind v op regs after d.regs values move env moved := by
  -- One local that is read has the value of its register.
  have one : ∀ {r : Nat} {l : LocalId} {x : V}, regs.getD r none = some l → l ∈ a.uses →
      d.regs.read r = some x →
      evaluate w s.env s.caught s.history (.read (v.resolve l)) = some (s.history, .ok x) :=
    fun held used value => evaluate_read (agrees.read held (whole _ used) value)
  have single : ∀ {r : Nat} {l : LocalId} {x : V}, regs.getD r none = some l → l ∈ a.uses →
      d.regs.read r = some x →
      evaluateAll w s.env s.caught s.history [.read (v.resolve l)] = some (s.history, .ok [x]) :=
    fun held used value => evaluateAll_cons (one held used value) rfl
  cases emits with
  | @receive goal type desc after puts =>
    obtain ⟨x, had, done⟩ := Option.map_eq_some_iff.mp performs
    cases done
    have evaluated : evaluate w s.env s.caught s.history (.leaf (.caught type desc)) =
        some (s.history, .ok x) := by
      rw [Expr.leaf, evaluate, caught ⟨_, rfl⟩ x had]
      rfl
    refine ⟨s.env.set new x, .next, ?_, .next rfl, agrees.set lawful below x,
      fun _ => agrees.define lawful below (fixed new rfl) puts x false⟩
    rw [← same]
    exact withValue_of_ok evaluated
  | @define goal type head operands args after operator reads puts =>
    obtain ⟨xs, read, done⟩ := Option.map_eq_some_iff.mp performs
    rw [uses_assign operator] at whole
    have evaluated := evaluate_node operator
      (evaluateAll_of_reads (w := w) s.caught s.history agrees reads whole read)
    rw [same] at evaluated
    rw [substitute_assign _ operator]
    split at done
    next made x applied =>
      cases done
      rw [applied, ← same] at evaluated
      exact ⟨_, _, withValue_of_ok evaluated, .next rfl, agrees.set lawful below x,
        fun _ => agrees.define lawful below (fixed new rfl) puts x _⟩
    next made x applied =>
      cases done
      rw [applied, ← same] at evaluated
      exact ⟨_, _, withValue_of_error evaluated, .raise (throws_of_apply applied), agrees,
        fun other => absurd rfl (other x)⟩
  | discard operator reads =>
    obtain ⟨xs, read, done⟩ := Option.map_eq_some_iff.mp performs
    rw [uses_void operator] at whole
    have evaluated := evaluate_node operator
      (evaluateAll_of_reads (w := w) s.caught s.history agrees reads whole read)
    rw [same] at evaluated
    rw [substitute_void _ operator]
    split at done
    next made x applied =>
      cases done
      rw [applied, ← same] at evaluated
      exact ⟨_, _, withValue_of_ok evaluated, .unchanged agrees (.next rfl)⟩
    next made x applied =>
      cases done
      rw [applied, ← same] at evaluated
      exact ⟨_, _, withValue_of_error evaluated,
        .unchanged agrees (.raise (throws_of_apply applied))⟩
  | @store place operands args value id operator reads held =>
    obtain ⟨xs, read, performs⟩ := Option.bind_eq_some_iff.mp performs
    obtain ⟨x, stored, done⟩ := Option.bind_eq_some_iff.mp performs
    rw [uses_store operator] at whole
    have all : List.Forall₂ (Reads regs) (operands ++ [.register value]) (args ++ [.read id]) :=
      rel_append reads (.cons (.register held) .nil)
    have every : (operands ++ [Dalvik.Operand.register value]).mapM (Dalvik.Operand.read w d.regs) =
        some (xs ++ [x]) := by
      simp [mapM_append, read, Dalvik.Operand.read, stored]
    have evaluated := evaluateAll_of_reads (w := w) s.caught s.history agrees all (by simpa using whole) every
    rw [map_append, map_singleton, applyExpr_read] at evaluated
    rw [substitute_store _ operator]
    exact mirrors_request agrees same rfl rfl evaluated (Option.some.inj done)
  | fill held | enter held | exit held =>
    obtain ⟨x, read, done⟩ := Option.map_eq_some_iff.mp performs
    exact mirrors_request agrees same rfl rfl (single held (by exact mem_singleton_self _) read)
      done
  | @branch cond left right target first second held held' =>
    obtain ⟨x, read, performs⟩ := Option.bind_eq_some_iff.mp performs
    obtain ⟨y, read', done⟩ := Option.bind_eq_some_iff.mp performs
    cases done
    have evaluated := evaluateAll_cons (one held (by exact mem_cons_self) read)
      (single held' (by exact mem_cons_of_mem _ (mem_singleton_self _)) read')
    refine ⟨s.env, if w.holds cond x (some y) then .jump (labelOf target) else .next, ?_, ?_⟩
    · rw [← same]
      exact withValues_of_ok evaluated
    · refine .unchanged agrees ?_
      split
      · exact .jump (by simp [jumps])
      · exact .next rfl
  | @branchZero cond left target id held =>
    obtain ⟨x, read, done⟩ := Option.bind_eq_some_iff.mp performs
    cases done
    have evaluated := single held (by exact mem_singleton_self _) read
    refine ⟨s.env, if w.holds cond x none then .jump (labelOf target) else .next, ?_, ?_⟩
    · rw [← same]
      exact withValues_of_ok evaluated
    · refine .unchanged agrees ?_
      split
      · exact .jump (by simp [jumps])
      · exact .next rfl
  | goto =>
    cases performs
    rw [← same]
    exact ⟨_, _, rfl, .unchanged agrees (.jump (by simp [jumps]))⟩
  | @switch value keys targets read_ held =>
    obtain ⟨x, read, done⟩ := Option.map_eq_some_iff.mp performs
    cases done
    have evaluated := one held (by exact mem_singleton_self _) read
    refine ⟨s.env, .jump (switchLabel keys (targets.map labelOf) behind (w.key x)), ?_, ?_⟩
    · rw [← same]
      exact withValue_of_ok evaluated
    · refine .unchanged agrees ?_
      rw [switchLabel, zip_map_right, find?_map]
      cases found : (keys.zip targets).find? fun k => k.1 == w.key x with
      | none =>
        have none : ((keys.zip targets).find?
            ((fun k : Int32 × Label => k.1 == w.key x) ∘ Prod.map id labelOf)) = none := found
        rw [none]
        exact .behind rfl
      | some k =>
        have some : ((keys.zip targets).find?
            ((fun k : Int32 × Label => k.1 == w.key x) ∘ Prod.map id labelOf)) = some k := found
        rw [some]
        exact .jump (of_mem_zip (mem_of_find?_eq_some found)).2
  | returnVoid =>
    cases performs
    rw [← same]
    exact ⟨_, _, rfl, .unchanged agrees .finish⟩
  | @returnValue value id held =>
    obtain ⟨x, read, done⟩ := Option.map_eq_some_iff.mp performs
    cases done
    have evaluated := one held (by exact mem_singleton_self _) read
    refine ⟨s.env, .finish (some x), ?_, .unchanged agrees .finish⟩
    rw [← same]
    exact withValue_of_ok evaluated
  | @throw value id held =>
    obtain ⟨x, read, done⟩ := Option.map_eq_some_iff.mp performs
    have evaluated := one held (by exact mem_singleton_self _) read
    split at done
    next asked =>
      cases done
      exact ⟨s.env, .raise _, (withValue_of_ok evaluated).trans (by rw [same, asked]),
        .unchanged agrees (.raise rfl)⟩
    next asked =>
      cases done
      exact ⟨s.env, .raise _, (withValue_of_ok evaluated).trans (by rw [same, asked]),
        .unchanged agrees (.raise rfl)⟩

theorem Emits.silent (emits : Emits labelOf behind new regs op none after)
    (agrees : Agrees v regs d.regs s.env)
    (performs : d.perform w op = some (history, values, move)) :
    transfers op = false ∧ history = d.history ∧ move = .next ∧ Agrees v after values s.env := by
  cases emits with
  | nop =>
    cases performs
    exact ⟨rfl, rfl, rfl, agrees⟩
  | copy puts =>
    obtain ⟨x, read, done⟩ := Option.map_eq_some_iff.mp performs
    cases done
    exact ⟨rfl, rfl, rfl, agrees.copy puts read _⟩

end Performs

end DexLift.Lower
