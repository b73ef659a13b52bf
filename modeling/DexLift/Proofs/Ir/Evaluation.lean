import DexLift.Proofs.Ir.Machine
import DexLift.Simplify.Inline
import Mathlib.Data.List.Basic
import Mathlib.Tactic.ByContra

/-!
# Evaluating expressions

Evaluation reads the locals an expression mentions and nothing else; a pure
expression makes no request and gives the same value whenever it is evaluated.
So an expression that stands for a local can be written where the local is read:
a pure one always, any other one when only pure nodes are evaluated before the
read.
-/

namespace DexLift.Ir

open List Ir.Expr

/-! ## Trees -/

variable {head : Head} {l : LocalId} {e value : Expr} {es : List Expr}

namespace Expr

theorem nodesOf_eq (args : List Expr) : nodesOf args = args.flatMap nodes := by
  induction args with
  | nil => rfl
  | cons first rest ih => rw [nodesOf, ih, flatMap_cons]

theorem mapNodesOf_eq (change : Expr → Expr) (args : List Expr) :
    mapNodesOf change args = args.map (mapNodes change) := by
  induction args with
  | nil => rfl
  | cons first rest ih => rw [mapNodesOf, ih, map_cons]

theorem evalOrderOf_eq (args : List Expr) : evalOrderOf args = args.flatMap evalOrder := by
  induction args with
  | nil => rfl
  | cons first rest ih => rw [evalOrderOf, ih, flatMap_cons]

end Expr

/-- Whether a node is evaluated without its operands. -/
def Head.isLeaf : Head → Bool
  | .missing | .read _ | .caught .. | .this | .param _ => true
  | _ => false

/-- Expressions in which only nodes that evaluate their operands have some. -/
inductive Expr.Proper : Expr → Prop where
  | leaf {head : Head} (isLeaf : head.isLeaf = true) : Proper (.leaf head)
  | inner {head : Head} {args : List Expr} (inner : head.isLeaf = false)
      (operands : ∀ e ∈ args, Proper e) : Proper (.node head args)

/-- Whether an expression mentions the exception that a handler caught. -/
def Expr.receives (e : Expr) : Bool :=
  e.nodes.any fun n => match n.head with
    | .caught .. => true
    | _ => false

section Inner

variable {head : Head} {args : List Expr}

section

variable (inner : head.isLeaf = false)

include inner

theorem Expr.nodes_inner : (node head args).nodes = .node head args :: args.flatMap nodes := by
  rw [nodes, nodesOf_eq]
  rintro rfl
  cases inner

theorem Expr.uses_inner : (node head args).uses = args.flatMap uses := by
  have own : (node head args).local? = none := by
    cases head <;> first | rfl | cases inner
  rw [uses, nodes_inner inner, filterMap_cons_none own, filterMap_flatMap]
  rfl

theorem Expr.canThrow_inner : (node head args).canThrow = (head.throws || args.any canThrow) := by
  rw [canThrow, nodes_inner inner, any_cons, any_flatMap]
  rfl

theorem Expr.receives_inner : (node head args).receives = args.any receives := by
  rw [receives, nodes_inner inner, any_cons, any_flatMap]
  cases head <;> first | rfl | cases inner

theorem Expr.isPure_inner :
    (node head args).isPure = ((node head args).nodeIsPure && args.all isPure) := by
  rw [isPure, nodes_inner inner, all_cons, all_flatMap]
  rfl

theorem Expr.replaceLocal_inner (l : LocalId) (value : Expr) :
    replaceLocal l value (.node head args) = .node head (args.map (replaceLocal l value)) := by
  unfold replaceLocal
  rw [mapNodes, mapNodesOf_eq]
  · cases head <;> first | rfl | cases inner
  · rintro rfl
    cases inner

theorem Expr.throws_of_nodeIsPure (pure : (node head args).nodeIsPure = true) :
    head.throws = false := by
  cases head with
  | binary op type =>
    have quiet : (node (.binary op type) args).canThrow = false := by
      simpa [nodeIsPure, head] using pure
    rw [canThrow_inner inner, Bool.or_eq_false_iff] at quiet
    exact quiet.1
  | _ => first | rfl | cases pure

end

end Inner

@[simp] theorem Expr.replaceLocal_read (l : LocalId) (value : Expr) :
    replaceLocal l value (.read l) = value := by
  simp [replaceLocal, read, leaf, mapNodes, local?, head]

theorem Expr.replaceLocal_leaf (isLeaf : head.isLeaf = true) (value : Expr) (other : head ≠ .read l) :
    replaceLocal l value (leaf head) = leaf head := by
  cases head with
  | read id =>
    have different : id ≠ l := fun same => other (same ▸ rfl)
    simp [replaceLocal, leaf, mapNodes, mapNodesOf, local?, head, different]
  | _ => rfl

section

variable (proper : e.Proper)

include proper

theorem Expr.Proper.uses_replaceLocal (l : LocalId) (value : Expr) :
    (replaceLocal l value e).uses = e.uses.flatMap fun x => if x = l then value.uses else [x] := by
  induction proper with
  | @leaf head isLeaf =>
    by_cases own : head = .read l
    · subst own
      rw [show Expr.leaf (.read l) = .read l from rfl, replaceLocal_read]
      simp [show (read l).uses = [l] from rfl]
    · rw [replaceLocal_leaf isLeaf value own]
      cases head with
      | read id =>
        have other : id ≠ l := fun same => own (same ▸ rfl)
        simp [show (Expr.leaf (.read id)).uses = [id] from rfl, other]
      | _ => rfl
  | inner inner _ ih =>
    rw [replaceLocal_inner inner, uses_inner inner, uses_inner inner, flatMap_map, flatMap_assoc]
    exact flatMap_congr ih

theorem Expr.Proper.replaceLocal_of_not_read (value : Expr)
    (unread : l ∉ e.uses) : replaceLocal l value e = e := by
  induction proper with
  | @leaf head isLeaf =>
    refine replaceLocal_leaf isLeaf value ?_
    rintro rfl
    exact unread (mem_singleton.mpr rfl)
  | @inner head args inner _ ih =>
    rw [uses_inner inner, mem_flatMap] at unread
    rw [replaceLocal_inner inner]
    refine congrArg _ ((map_congr_left fun e member => ?_).trans (map_id' args))
    exact ih e member fun read => unread ⟨e, member, read⟩

theorem Expr.Proper.replaceLocal (l : LocalId) (properValue : value.Proper) :
    (replaceLocal l value e).Proper := by
  induction proper with
  | @leaf head isLeaf =>
    by_cases own : head = .read l
    · subst own
      rwa [show Expr.leaf (.read l) = .read l from rfl, replaceLocal_read]
    · rw [replaceLocal_leaf isLeaf value own]
      exact .leaf isLeaf
  | inner inner _ ih =>
    rw [replaceLocal_inner inner]
    refine .inner inner fun e member => ?_
    obtain ⟨original, listed, rfl⟩ := mem_map.mp member
    exact ih original listed

theorem Expr.Proper.canThrow_replaceLocal (throws : (Expr.replaceLocal l value e).canThrow = true) :
    e.canThrow = true ∨ value.canThrow = true := by
  induction proper with
  | @leaf head isLeaf =>
    by_cases own : head = .read l
    · subst own
      rw [show Expr.leaf (.read l) = .read l from rfl, replaceLocal_read] at throws
      exact .inr throws
    · rw [replaceLocal_leaf isLeaf value own] at throws
      exact .inl throws
  | @inner head args inner _ ih =>
    rw [replaceLocal_inner inner, canThrow_inner inner, Bool.or_eq_true, any_eq_true] at throws
    rw [canThrow_inner inner, Bool.or_eq_true, any_eq_true]
    rcases throws with own | ⟨changed, member, below⟩
    · exact .inl (.inl own)
    · obtain ⟨original, listed, rfl⟩ := mem_map.mp member
      rcases ih original listed below with here | there
      · exact .inl (.inr ⟨original, listed, here⟩)
      · exact .inr there

theorem Expr.Proper.receives_replaceLocal (here : (Expr.replaceLocal l value e).receives = true) :
    e.receives = true ∨ value.receives = true := by
  induction proper with
  | @leaf head isLeaf =>
    by_cases own : head = .read l
    · subst own
      rw [show Expr.leaf (.read l) = .read l from rfl, replaceLocal_read] at here
      exact .inr here
    · rw [replaceLocal_leaf isLeaf value own] at here
      exact .inl here
  | @inner head args inner _ ih =>
    rw [replaceLocal_inner inner, receives_inner inner, any_eq_true] at here
    rw [receives_inner inner, any_eq_true]
    obtain ⟨changed, member, below⟩ := here
    obtain ⟨original, listed, rfl⟩ := mem_map.mp member
    rcases ih original listed below with operand | written
    · exact .inl ⟨original, listed, operand⟩
    · exact .inr written

end

/-! ## One evaluation after another -/

/-- What evaluating gives: nothing when something read is not there, else the requests made so far
and a value or an exception. -/
abbrev Answer (V α : Type) := Option (History V × Except V α)

/-- Goes on with the value; an exception ends the evaluation. -/
def andThen {V α β : Type} (first : Answer V α) (next : History V → α → Answer V β) :
    Answer V β :=
  match first with
  | none => none
  | some (history, .error x) => some (history, .error x)
  | some (history, .ok a) => next history a

section AndThen

variable {V α β γ : Type} {history : History V}

@[simp] theorem andThen_error (x : V) (next : History V → α → Answer V β) :
    andThen (some (history, .error x)) next = some (history, .error x) := rfl

@[simp] theorem andThen_ok (a : α) (next : History V → α → Answer V β) :
    andThen (some (history, .ok a)) next = next history a := rfl

theorem andThen_assoc (first : Answer V α) (second : History V → α → Answer V β)
    (third : History V → β → Answer V γ) :
    andThen (andThen first second) third =
      andThen first fun history a => andThen (second history a) third := by
  rcases first with _ | ⟨history, _ | a⟩ <;> rfl

variable {first : Answer V α} {next : History V → α → Answer V β}

theorem andThen_congr {first : Answer V α} {next other : History V → α → Answer V β}
    (same : ∀ history a, first = some (history, .ok a) → next history a = other history a) :
    andThen first next = andThen first other := by
  rcases first with _ | ⟨history, _ | a⟩
  · rfl
  · rfl
  · exact same history a rfl

theorem andThen_mono {other : Answer V α} {otherNext : History V → α → Answer V β}
    {r : History V × Except V β} (done : andThen first next = some r)
    (firstStep : ∀ r, first = some r → other = some r)
    (nextStep : ∀ history a r, next history a = some r → otherNext history a = some r) :
    andThen other otherNext = some r := by
  rcases first with _ | ⟨history, x | a⟩
  · cases done
  · rwa [firstStep _ rfl]
  · rw [firstStep _ rfl]
    exact nextStep history a r done

theorem andThen_eq_ok {b : β} (done : andThen first next = some (history, .ok b)) :
    ∃ middle a, first = some (middle, .ok a) ∧ next middle a = some (history, .ok b) := by
  rcases first with _ | ⟨middle, x | a⟩
  · cases done
  · cases done
  · exact ⟨middle, a, rfl, done⟩

theorem andThen_eq_error {x : V} (failed : andThen first next = some (history, .error x)) :
    first = some (history, .error x) ∨
      ∃ middle a, first = some (middle, .ok a) ∧ next middle a = some (history, .error x) := by
  rcases first with _ | ⟨middle, y | a⟩
  · cases failed
  · cases failed
    exact .inl rfl
  · exact .inr ⟨middle, a, rfl, failed⟩

end AndThen

/-! ## What evaluation depends on -/

variable {V : Type} {w : World V} {env other : Env V} {caught received : Option V}
  {history : History V}

/-- What a node gives on the values of its operands. -/
def World.compute (w : World V) (head : Head) (history : History V) (values : List V) : Answer V V :=
  if head.throws then some (w.ask history (.evaluate head) values)
  else some (history, .ok (w.value head values))

theorem evaluate_inner {args : List Expr} (inner : head.isLeaf = false) :
    evaluate w env caught history (.node head args) =
      andThen (evaluateAll w env caught history args) (w.compute head) := by
  unfold evaluate
  split
  · cases inner
  · cases inner
  · cases inner
  · cases inner
  · rcases evaluateAll w env caught history args with _ | ⟨_, _ | _⟩ <;> rfl

theorem evaluateAll_cons {rest : List Expr} :
    evaluateAll w env caught history (e :: rest) =
      andThen (evaluate w env caught history e) fun history v =>
        andThen (evaluateAll w env caught history rest) fun history vs =>
          some (history, .ok (v :: vs)) := by
  rw [evaluateAll]
  rcases evaluate w env caught history e with _ | ⟨middle, x | v⟩
  · rfl
  · rfl
  · dsimp only [andThen_ok]
    rcases evaluateAll w env caught middle rest with _ | ⟨_, _ | _⟩ <;> rfl

variable {r : History V × Except V (List V)}

theorem evaluateAll_mono
    (each : ∀ e ∈ es, ∀ history r, evaluate w env caught history e = some r →
      evaluate w other received history e = some r)
    (done : evaluateAll w env caught history es = some r) :
    evaluateAll w other received history es = some r := by
  induction es generalizing history r with
  | nil => exact done
  | cons e rest ih =>
    rw [evaluateAll_cons] at done ⊢
    refine andThen_mono done (each e mem_cons_self history) fun history v r done => ?_
    refine andThen_mono done (fun r => ih fun e member =>
      each e (.tail _ member)) fun _ _ _ done => done

theorem Expr.Proper.evaluate_mono (proper : e.Proper)
    (reads : ∀ l ∈ e.uses, ∀ v, env l = some v → other l = some v)
    (mentions : e.receives = true → ∀ v, caught = some v → received = some v)
    {r : History V × Except V V} (done : evaluate w env caught history e = some r) :
    evaluate w other received history e = some r := by
  induction proper generalizing history r with
  | @leaf head isLeaf =>
    cases head with
    | read id =>
      rw [Expr.leaf, evaluate, Option.map_eq_some_iff] at done ⊢
      obtain ⟨v, set, rfl⟩ := done
      exact ⟨v, reads id (mem_singleton.mpr rfl) v set, rfl⟩
    | caught type desc =>
      rw [Expr.leaf, evaluate, Option.map_eq_some_iff] at done ⊢
      obtain ⟨v, set, rfl⟩ := done
      exact ⟨v, mentions rfl v set, rfl⟩
    | _ => exact done
  | inner inner _ ih =>
    rw [uses_inner inner] at reads
    rw [receives_inner inner, any_eq_true] at mentions
    rw [evaluate_inner inner] at done ⊢
    refine andThen_mono done (fun r => evaluateAll_mono fun e member history r =>
      ih e member ?_ ?_) fun _ _ _ done => done
    · exact fun l read => reads l (mem_flatMap.mpr ⟨e, member, read⟩)
    · exact fun here => mentions ⟨e, member, here⟩

theorem evaluateAll_agree (proper : ∀ e ∈ es, e.Proper)
    (reads : ∀ l ∈ es.flatMap uses, ∀ v, env l = some v → other l = some v)
    (mentions : ∀ e ∈ es, e.receives = true → ∀ v, caught = some v → received = some v)
    (done : evaluateAll w env caught history es = some r) :
    evaluateAll w other received history es = some r :=
  evaluateAll_mono (fun e member _ _ => (proper e member).evaluate_mono
    (fun l read => reads l (mem_flatMap.mpr ⟨e, member, read⟩)) (mentions e member)) done

theorem Expr.Proper.evaluate_set (proper : e.Proper) (unread : l ∉ e.uses) (v : V) :
    evaluate w (env.set l v) caught history e = evaluate w env caught history e := by
  have same : ∀ x ∈ e.uses, (env.set l v) x = env x := by
    intro x read
    refine if_neg fun here => ?_
    subst here
    exact unread read
  refine Option.ext fun r => ⟨?_, ?_⟩
  · exact proper.evaluate_mono (fun x read y set => (same x read) ▸ set) fun _ _ set => set
  · exact proper.evaluate_mono (fun x read y set => (same x read).trans set) fun _ _ set => set

theorem evaluateAll_set (proper : ∀ e ∈ es, e.Proper) (unread : l ∉ es.flatMap uses) (v : V) :
    evaluateAll w (env.set l v) caught history es = evaluateAll w env caught history es := by
  have same : ∀ e ∈ es, ∀ history, evaluate w (env.set l v) caught history e =
      evaluate w env caught history e := fun e member history =>
    (proper e member).evaluate_set (fun read => unread (mem_flatMap.mpr ⟨e, member, read⟩)) v
  refine Option.ext fun r => ⟨?_, ?_⟩
  · exact evaluateAll_mono fun e member history r done => (same e member history) ▸ done
  · exact evaluateAll_mono fun e member history r done => (same e member history).trans done

variable {after : History V}

theorem exists_error_of_evaluateAll {x : V}
    (failed : evaluateAll w env caught history es = some (after, .error x)) :
    ∃ e ∈ es, ∃ before, evaluate w env caught before e = some (after, .error x) := by
  induction es generalizing history with
  | nil => cases failed
  | cons e rest ih =>
    rw [evaluateAll_cons] at failed
    rcases andThen_eq_error failed with here | ⟨middle, v, -, failed⟩
    · exact ⟨e, mem_cons_self, history, here⟩
    · rcases andThen_eq_error failed with there | ⟨_, _, -, contrary⟩
      · obtain ⟨later, member, here⟩ := ih there
        exact ⟨later, .tail _ member, here⟩
      · cases contrary

theorem Expr.Proper.canThrow_of_error (proper : e.Proper) {x : V}
    (failed : evaluate w env caught history e = some (after, .error x)) : e.canThrow = true := by
  induction proper generalizing history with
  | @leaf head isLeaf =>
    cases head with
    | read id | caught type desc =>
      rw [Expr.leaf, evaluate, Option.map_eq_some_iff] at failed
      obtain ⟨_, _, contrary⟩ := failed
      cases contrary
    | missing | this | param => cases failed
    | _ => cases isLeaf
  | @inner head args inner _ ih =>
    rw [canThrow_inner inner, Bool.or_eq_true, any_eq_true]
    rw [evaluate_inner inner] at failed
    rcases andThen_eq_error failed with below | ⟨middle, values, -, own⟩
    · obtain ⟨e, member, before, here⟩ := exists_error_of_evaluateAll below
      exact .inr ⟨e, member, ih e member here⟩
    · left
      by_contra quiet
      rw [World.compute, if_neg quiet] at own
      cases own

/-! ## Pure expressions -/

theorem Expr.Proper.evaluate_pure (proper : e.Proper) (pure : e.isPure = true)
    (set : ∀ l ∈ e.uses, (env l).isSome) :
    ∃ v, ∀ history caught, evaluate w env caught history e = some (history, .ok v) := by
  induction proper with
  | @leaf head isLeaf =>
    cases head with
    | missing => exact ⟨_, fun _ _ => rfl⟩
    | read id =>
      obtain ⟨v, here⟩ := Option.isSome_iff_exists.mp (set id (mem_singleton.mpr rfl))
      refine ⟨v, fun history caught => ?_⟩
      rw [Expr.leaf, evaluate, here]
      rfl
    | caught | this | param => cases pure
    | _ => cases isLeaf
  | @inner head args inner _ ih =>
    rw [isPure_inner inner, Bool.and_eq_true, all_eq_true] at pure
    rw [uses_inner inner] at set
    have operands : ∀ es, es ⊆ args → ∃ vs, ∀ history caught,
        evaluateAll w env caught history es = some (history, .ok vs) := by
      intro es
      induction es with
      | nil => exact fun _ => ⟨[], fun _ _ => rfl⟩
      | cons e rest later =>
        intro sub
        have member := sub mem_cons_self
        obtain ⟨v, here⟩ := ih e member (pure.2 e member) fun l read =>
          set l (mem_flatMap.mpr ⟨e, member, read⟩)
        obtain ⟨vs, others⟩ := later fun _ inRest => sub (.tail _ inRest)
        exact ⟨v :: vs, fun history caught => by
          rw [evaluateAll_cons, here, andThen_ok, others, andThen_ok]⟩
    obtain ⟨vs, values⟩ := operands args fun _ member => member
    refine ⟨w.value head vs, fun history caught => ?_⟩
    rw [evaluate_inner inner, values, andThen_ok, World.compute, throws_of_nodeIsPure inner pure.1]
    rfl

theorem Expr.Proper.evaluate_replaceLocal (proper : e.Proper) {v : V}
    (stands : ∀ history, evaluate w env caught history value = some (history, .ok v)) :
    evaluate w env caught history (Expr.replaceLocal l value e) =
      evaluate w (env.set l v) caught history e := by
  induction proper generalizing history with
  | @leaf head isLeaf =>
    by_cases own : head = .read l
    · subst own
      rw [show Expr.leaf (.read l) = .read l from rfl, replaceLocal_read, stands, Expr.read,
        Expr.leaf, evaluate, Env.set, if_pos rfl]
      rfl
    · rw [replaceLocal_leaf isLeaf value own]
      refine (Proper.evaluate_set (.leaf isLeaf) ?_ v).symm
      intro read
      cases head with
      | read id => exact own (mem_singleton.mp read ▸ rfl)
      | _ => cases read
  | @inner head args inner operands ih =>
    rw [replaceLocal_inner inner, evaluate_inner inner, evaluate_inner inner]
    refine congrArg (andThen · (w.compute head)) ?_
    clear inner
    induction args generalizing history with
    | nil => rfl
    | cons e rest later =>
      rw [map_cons, evaluateAll_cons, evaluateAll_cons, ih e mem_cons_self]
      refine andThen_congr fun middle _ _ => ?_
      rw [later (fun other member => operands other (.tail _ member))
        fun other member => ih other (.tail _ member)]

/-! ## What is evaluated first -/

/-- Before a local is read only pure expressions are evaluated. -/
inductive FirstRead (l : LocalId) : List Expr → Prop where
  | read (rest : List Expr) : FirstRead l (.read l :: rest)
  | inside {head : Head} {args : List Expr} (inner : head.isLeaf = false)
      (first : FirstRead l args) (rest : List Expr) : FirstRead l (.node head args :: rest)
  | skip {e : Expr} {rest : List Expr} (pure : e.isPure = true) (later : FirstRead l rest) :
      FirstRead l (e :: rest)

theorem FirstRead.mem_uses (first : FirstRead l es) : l ∈ es.flatMap uses := by
  induction first with
  | read rest => exact mem_flatMap.mpr ⟨_, mem_cons_self, mem_singleton.mpr rfl⟩
  | inside inner _ rest ih =>
    refine mem_flatMap.mpr ⟨_, mem_cons_self, ?_⟩
    rwa [uses_inner inner]
  | skip _ _ ih =>
    rw [flatMap_cons]
    exact mem_append_right _ ih

/-- Any value can be written where a local is read, when that is its only read and only pure
expressions are evaluated before. -/
theorem FirstRead.evaluateAll_replaceLocal (first : FirstRead l es) (proper : ∀ e ∈ es, e.Proper)
    (once : (es.flatMap uses).count l = 1)
    (set : ∀ x ∈ es.flatMap uses, x ≠ l → (env x).isSome) (value : Expr) :
    evaluateAll w env caught history (es.map (replaceLocal l value)) =
      andThen (evaluate w env caught history value) fun history v =>
        evaluateAll w (env.set l v) caught history es := by
  have others : ∀ {rest : List Expr}, (∀ e ∈ rest, e.Proper) → l ∉ rest.flatMap uses →
      rest.map (replaceLocal l value) = rest := by
    intro rest proper unread
    exact (map_congr_left fun e member => (proper e member).replaceLocal_of_not_read value
      fun read => unread (mem_flatMap.mpr ⟨e, member, read⟩)).trans (map_id' rest)
  induction first generalizing history with
  | read rest =>
    obtain ⟨properHere, properRest⟩ := forall_mem_cons.mp proper
    have unread : l ∉ rest.flatMap uses := by
      rw [flatMap_cons, count_append, show (Expr.read l).uses = [l] from rfl,
        count_singleton_self] at once
      exact count_eq_zero.mp (by omega)
    rw [map_cons, replaceLocal_read, others properRest unread, evaluateAll_cons]
    refine andThen_congr fun middle v _ => ?_
    have here : evaluate w (env.set l v) caught middle (.read l) = some (middle, .ok v) := by
      rw [Expr.read, Expr.leaf, evaluate, Env.set, if_pos rfl]
      rfl
    rw [evaluateAll_cons, here, andThen_ok, evaluateAll_set properRest unread]
  | @inside head args inner first rest ih =>
    obtain ⟨properHere, properRest⟩ := forall_mem_cons.mp proper
    have properArgs : ∀ e ∈ args, e.Proper := by
      cases properHere with
      | leaf isLeaf =>
        rw [inner] at isLeaf
        cases isLeaf
      | inner _ operands => exact operands
    rw [flatMap_cons, count_append, uses_inner inner] at once
    have present := count_pos_iff.mpr first.mem_uses
    have unread : l ∉ rest.flatMap uses := count_eq_zero.mp (by omega)
    rw [flatMap_cons, uses_inner inner] at set
    have below := fun history => @ih history properArgs (by omega)
      fun x read => set x (mem_append_left _ read)
    rw [map_cons, replaceLocal_inner inner, others properRest unread, evaluateAll_cons,
      evaluate_inner inner, below, andThen_assoc, andThen_assoc]
    refine andThen_congr fun middle v _ => ?_
    rw [evaluateAll_cons, evaluate_inner inner, andThen_assoc]
    simp only [evaluateAll_set properRest unread]
  | @skip e rest pure later ih =>
    obtain ⟨properHere, properRest⟩ := forall_mem_cons.mp proper
    rw [flatMap_cons, count_append] at once
    have present := count_pos_iff.mpr later.mem_uses
    have unread : l ∉ e.uses := count_eq_zero.mp (by omega)
    rw [flatMap_cons] at set
    obtain ⟨v, here⟩ := properHere.evaluate_pure (w := w) pure fun x read =>
      set x (mem_append_left _ read) fun same => unread (same ▸ read)
    rw [map_cons, properHere.replaceLocal_of_not_read value unread, evaluateAll_cons, here,
      andThen_ok, ih properRest (by omega) fun x read =>
        set x (mem_append_right _ read), andThen_assoc]
    refine andThen_congr fun middle u _ => ?_
    rw [evaluateAll_cons, properHere.evaluate_set unread, here, andThen_ok]

theorem Expr.Proper.mem_evalOrder (proper : e.Proper) : ∀ node ∈ e.nodes, node ∈ e.evalOrder := by
  induction proper with
  | @leaf head isLeaf =>
    cases head with
    | missing => exact fun _ member => nomatch member
    | _ => exact fun _ member => member
  | inner inner _ ih =>
    intro node member
    rw [evalOrder, evalOrderOf_eq]
    rw [nodes_inner inner] at member
    rcases mem_cons.mp member with rfl | below
    · exact mem_append_right _ (mem_singleton.mpr rfl)
    · obtain ⟨operand, listed, here⟩ := mem_flatMap.mp below
      exact mem_append_left _ (mem_flatMap.mpr ⟨operand, listed, ih operand listed node here⟩)

theorem firstRead_of_each (proper : ∀ e ∈ es, e.Proper)
    (each : ∀ e ∈ es, ∀ earlier node later rest, e.evalOrder = earlier ++ node :: later →
      node.local? = some l → earlier.all nodeIsPure = true → FirstRead l (e :: rest))
    {earlier later : List Expr} {node : Expr}
    (split : es.flatMap evalOrder = earlier ++ node :: later) (reads : node.local? = some l)
    (pure : earlier.all nodeIsPure = true) : FirstRead l es := by
  induction es generalizing earlier with
  | nil =>
    rw [flatMap_nil] at split
    cases earlier <;> cases split
  | cons e rest ih =>
    have further : ∀ more, earlier = e.evalOrder ++ more →
        rest.flatMap evalOrder = more ++ node :: later → FirstRead l (e :: rest) := by
      rintro more rfl below
      rw [all_append, Bool.and_eq_true] at pure
      refine .skip ?_ (ih (fun e member => proper e (.tail _ member))
        (fun e member => each e (.tail _ member)) below pure.2)
      rw [isPure, all_eq_true]
      exact fun n listed => all_eq_true.mp pure.1 n
        ((proper e mem_cons_self).mem_evalOrder n listed)
    rw [flatMap_cons] at split
    rcases append_eq_append_iff.mp split with ⟨more, front, back⟩ | ⟨more, front, back⟩
    · exact further more front back
    · cases more with
      | nil => exact further [] (by simpa using front.symm) (by simpa using back.symm)
      | cons first more =>
        rw [cons_append] at back
        cases back
        exact each e mem_cons_self earlier node more rest front reads pure

theorem Expr.Proper.firstRead (proper : e.Proper) :
    ∀ earlier node later rest, e.evalOrder = earlier ++ node :: later → node.local? = some l →
      earlier.all nodeIsPure = true → FirstRead l (e :: rest) := by
  induction proper with
  | @leaf head isLeaf =>
    intro earlier node later rest split reads _
    have single : (Expr.leaf head).evalOrder = [Expr.leaf head] := by
      rw [Expr.leaf, evalOrder, evalOrderOf, nil_append]
    rw [single] at split
    have same : node = Expr.leaf head := by
      cases earlier with
      | nil => exact ((cons.inj split).1).symm
      | cons first more =>
        have tail := (cons.inj split).2
        cases more <;> cases tail
    subst same
    cases head with
    | read id =>
      cases reads
      exact .read rest
    | _ => cases reads
  | @inner head args inner operands ih =>
    intro earlier node later rest split reads pure
    rw [evalOrder, evalOrderOf_eq] at split
    refine .inside inner ?_ rest
    have own : ∀ n : Expr, n = .node head args → n.local? = none := by
      rintro _ rfl
      cases head <;> first | rfl | cases inner
    rcases append_eq_append_iff.mp split with ⟨more, -, back⟩ | ⟨more, front, back⟩
    · have same : node = .node head args := by
        cases more with
        | nil => exact ((cons.inj back).1).symm
        | cons first more =>
          have tail := (cons.inj back).2
          cases more <;> cases tail
      rw [own node same] at reads
      cases reads
    · cases more with
      | nil =>
        have same : node = .node head args := (cons.inj back).1
        rw [own node same] at reads
        cases reads
      | cons first more =>
        rw [cons_append] at back
        cases back
        exact firstRead_of_each operands (fun e member => ih e member) front reads pure

end DexLift.Ir
