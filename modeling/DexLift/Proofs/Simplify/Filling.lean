import DexLift.Proofs.Ir.Checking
import DexLift.Proofs.Simplify.Moving
import Mathlib

/-!
# The pass that moves values

The pass goes over the body statement by statement and keeps the statements in
front in a list of its own, the nearest first. The body at any time is that list
turned round and what is still to come.

## Moving values keeps what a method does

Moving values to their readers writes one value after another where it is read.
The counts of reads are made once, before anything moves; they stay right for the
locals that are still defined, since a value that moves is read where it was
read. So each move is one of those that keep runs, and the runs of the method
with all values moved go beside those of the method before.
-/

namespace DexLift.Ir

open List Ir.Action

/-! ## What stays the same -/

variable {x l : LocalId} {before : List StmtId} {id : StmtId}

/-- Two states, each in its method, that have come to the same. The same requests have been made
and answered; the block was entered from the same block and in the same way; both stand at the same
label or at none, a handler with the same exception; and of the locals that the second method
defines, those known in the first are known in the second and have the same values. -/
structure State.Agrees {V : Type} (m n : Method) (s t : State V) : Prop where
  history : t.history = s.history
  origin : t.origin = s.origin
  label : ∀ l, n.actions[t.position]? = some (.label l) ↔ m.actions[s.position]? = some (.label l)
  caught : ∀ l, n.actions[t.position]? = some (.label l) → t.caught = s.caught
  known : ∀ x, n.Defines x → m.Knows s.position x → n.Knows t.position x
  env : ∀ x, n.Defines x → m.Knows s.position x → t.env x = s.env x

section Agrees

variable {V : Type} {m n p : Method} {r s t : State V}

theorem State.Agrees.refl (s : State V) : s.Agrees m m s :=
  ⟨rfl, rfl, fun _ => Iff.rfl, fun _ _ => rfl, fun _ _ known => known, fun _ _ _ => rfl⟩

theorem State.Agrees.trans (first : r.Agrees m n s) (second : s.Agrees n p t)
    (fewer : ∀ x, p.Defines x → n.Defines x) : r.Agrees m p t where
  history := second.history.trans first.history
  origin := second.origin.trans first.origin
  label l := (second.label l).trans (first.label l)
  caught l here := (second.caught l here).trans (first.caught l ((second.label l).mp here))
  known x defined known :=
    second.known x defined (first.known x (fewer x defined) known)
  env x defined known :=
    (second.env x defined (first.known x (fewer x defined) known)).trans
      (first.env x (fewer x defined) known)

end Agrees

namespace Folds

variable {source target : Method} {f : Fold} (folds : Folds source target f)

include folds

theorem defines_of_target (single : source.SingleAssignment) (defined : target.Defines x) :
    source.Defines x ∧ x ≠ f.l := by
  obtain ⟨b, member, own⟩ := defined
  obtain ⟨position, found⟩ := mem_iff_getElem?.mp member
  obtain ⟨a, here, -, -, -, -, -, -, same⟩ := folds.exists_get found
  refine ⟨⟨a, mem_of_getElem? here, same.trans own⟩, ?_⟩
  rintro rfl
  refine folds.defines_ne_l single here ?_ (same.trans own)
  unfold Fold.origin
  split <;> omega

theorem agrees {V : Type} {w : World V} {s t : State V} (proper : source.Proper)
    (single : source.SingleAssignment) (related : f.Related w source s t) :
    s.Agrees source target t := by
  have length := folds.takes.length_eq
  have inBody := folds.lt_length
  have known : ∀ x, target.Defines x → source.Knows (f.origin t.position) x →
      target.Knows t.position x := by
    intro x defined ⟨inside, always⟩
    refine ⟨?_, folds.assigns_target proper (folds.defines_of_target single defined).2 always⟩
    unfold Fold.origin at inside
    split at inside <;> omega
  have env : ∀ {s : State V}, s.Alike source (· = f.l) t → ∀ x, target.Defines x →
      source.Knows s.position x → t.env x = s.env x :=
    fun alike x defined => alike.env x (folds.defines_of_target single defined).2
  -- No label stands between the definition and its reader.
  have plain : ∀ {position : Nat}, f.place ≤ position → position ≤ f.place + 1 + f.gap →
      ∀ l, source.actions[position]? ≠ some (.label l) := by
    intro position low high l label
    obtain ⟨a, found, plain, -⟩ := folds.plain_inside low high
    cases label.symm.trans found
    cases plain
  have inside : f.place ≤ t.position → t.position ≤ f.place + f.gap →
      ∀ l, target.actions[t.position]? ≠ some (.label l) := by
    intro low high l label
    rw [folds.takes.label_iff, Fold.origin_of_ge low] at label
    exact plain (by omega) (by omega) l label
  cases related with
  | outside apart position alike history caught =>
    rw [← position] at known
    exact ⟨history, alike.origin, fun l => position ▸ folds.takes.label_iff, fun _ _ => caught, known,
      env alike⟩
  | computed low high position alike history _ _ _ _ =>
    have origin : s.position = f.origin t.position := by
      rw [position, Fold.origin_of_ge low]
    rw [← origin] at known
    exact ⟨history, alike.origin, fun l => origin ▸ folds.takes.label_iff,
      fun l label => absurd label (inside low high l), known, env alike⟩
  | waiting _ passed within position ahead alike history _ =>
    refine ⟨history, alike.origin, fun l => ⟨fun label => ?_, fun label => ?_⟩, fun l label => ?_,
      fun x defined before => known x defined ?_, env alike⟩
    · exact absurd label (inside (by omega) (by omega) l)
    · exact absurd (position ▸ label) (plain le_rfl (by omega) l)
    · exact absurd label (inside (by omega) (by omega) l)
    · refine folds.knows_inside (position ▸ before) ?_ ?_ <;>
        rw [ahead, Fold.origin_of_ge (by omega)] <;> omega

end Folds

/-! ## One value after another -/

/-- Values were written where they are read, one after another. -/
def Method.Folded : Method → Method → Prop := Relation.ReflTransGen fun m n => ∃ f, Folds m n f

namespace Method.Folded

variable {m n : Method}

theorem keeps (folded : m.Folded n) (proper : m.Proper) (single : m.SingleAssignment) :
    n.Proper ∧ n.SingleAssignment ∧ (∀ x, n.Defines x → m.Defines x) ∧
      ∀ {V : Type} (w : World V), m.TakesPlace w (State.Agrees m n) n := by
  induction folded with
  | refl => exact ⟨proper, single, fun _ defined => defined, fun w => .refl State.Agrees.refl⟩
  | tail _ step ih =>
    obtain ⟨properHere, singleHere, fewer, takes⟩ := ih
    obtain ⟨f, folds⟩ := step
    have fewerThere := fun x defined => (folds.defines_of_target (x := x) singleHere defined).1
    refine ⟨folds.proper_target properHere, folds.singleAssignment_target properHere singleHere,
      fun x defined => fewer x (fewerThere x defined), fun w => ?_⟩
    refine (takes w).comp (folds.takesPlace w properHere singleHere) fun r s t first related => ?_
    exact first.trans (folds.agrees properHere singleHere related) fewerThere

end Method.Folded

/-! ## The order of evaluation -/

namespace Expr

theorem Proper.mem_uses_of_evalOrder {e : Expr} (proper : e.Proper) {node : Expr}
    (listed : node ∈ e.evalOrder) (reads : node.local? = some l) : l ∈ e.uses := by
  induction proper with
  | @leaf head isLeaf =>
    rw [Expr.leaf, evalOrder, evalOrderOf, nil_append, mem_singleton] at listed
    subst listed
    cases head with
    | read id =>
      cases reads
      exact mem_singleton.mpr rfl
    | _ => cases reads
  | @inner head args inner _ ih =>
    rw [evalOrder, evalOrderOf_eq, mem_append, mem_singleton] at listed
    rw [uses_inner inner, mem_flatMap]
    rcases listed with below | rfl
    · obtain ⟨operand, member, here⟩ := mem_flatMap.mp below
      exact ⟨operand, member, ih operand member here⟩
    · have own : (Expr.node head args).local? = none := by
        cases head <;> first | rfl | cases inner
      rw [own] at reads
      cases reads

theorem isPure_of_isMissing {e : Expr} (missing : e.isMissing = true) : e.isPure = true := by
  obtain ⟨head, args⟩ := e
  have same : head = .missing := by simpa [isMissing, Expr.head] using missing
  rw [same, isPure, nodes]
  rfl

end Expr

theorem FirstRead.of_filter {es : List Expr} (first : FirstRead l (es.filter fun e => !e.isMissing)) :
    FirstRead l es := by
  induction es with
  | nil => cases first
  | cons e rest ih =>
    cases missing : e.isMissing with
    | true =>
      rw [filter_cons_of_neg (by simp [missing])] at first
      exact .skip (Expr.isPure_of_isMissing missing) (ih first)
    | false =>
      rw [filter_cons_of_pos (by simp [missing])] at first
      cases first with
      | read => exact .read rest
      | inside inner below => exact .inside inner below rest
      | skip pure later => exact .skip pure (ih later)

theorem Action.evalOrder_eq (a : Action) : ∃ es, a.evalOrder = es.flatMap Expr.evalOrder ∧
    (es = a.inputs ∨ es = a.inputs.filter fun e => !e.isMissing) := by
  cases a with
  | store place value =>
    refine ⟨place.args ++ [value], ?_, .inl rfl⟩
    simp [evalOrder, Expr.evalOrderOf_eq]
  | branch cond left right target => exact ⟨_, Expr.evalOrderOf_eq _, .inr rfl⟩
  | «return» v => exact ⟨_, Expr.evalOrderOf_eq _, .inl rfl⟩
  | label | phi | goto | nop => exact ⟨[], rfl, .inl rfl⟩
  | _ =>
    refine ⟨_, Expr.evalOrderOf_eq _, .inr ?_⟩
    simp only [operands, value?, inputs, parts]
    split <;> simp_all

section Reads

variable {a : Action} {l : LocalId} {earlier later : List Expr} {node : Expr}

theorem Action.Proper.mem_inputs (proper : a.Proper) (listed : node ∈ a.evalOrder)
    (reads : node.local? = some l) : l ∈ a.inputs.flatMap Expr.uses := by
  obtain ⟨es, same, which⟩ := a.evalOrder_eq
  have sub : es ⊆ a.inputs := by grind
  rw [same] at listed
  obtain ⟨e, member, here⟩ := mem_flatMap.mp listed
  exact mem_flatMap.mpr ⟨e, sub member,
    (proper.inputs_proper e (sub member)).mem_uses_of_evalOrder here reads⟩

theorem Action.Proper.firstRead (proper : a.Proper)
    (split : a.evalOrder = earlier ++ node :: later) (reads : node.local? = some l)
    (pure : earlier.all Expr.nodeIsPure = true) : FirstRead l a.inputs := by
  obtain ⟨es, same, which⟩ := a.evalOrder_eq
  rw [same] at split
  have first : (∀ e ∈ es, e.Proper) → FirstRead l es := fun properAll =>
    firstRead_of_each properAll (fun e member => (properAll e member).firstRead) split reads pure
  rcases which with rfl | rfl
  · exact first proper.inputs_proper
  · exact .of_filter (first fun e member => proper.inputs_proper e (mem_of_mem_filter member))

end Reads

/-! ## What is found -/

theorem passedOver_spec {m : Method} {stmt : StmtId} {between : List StmtId}
    (found : passedOver m stmt before = some between) : ∃ more, before = between ++ stmt :: more ∧
      ∀ id ∈ between, (m.action id).label? = none ∧ (m.action id).isPhi = false ∧
        (m.action id).endsBlock = false := by
  induction before generalizing between with
  | nil => cases found
  | cons id rest ih =>
    rw [passedOver] at found
    split at found
    next here =>
      cases found
      exact ⟨rest, by rw [here, nil_append], fun _ contrary => nomatch contrary⟩
    next other =>
      dsimp only at found
      split at found
      · cases found
      next plain =>
        obtain ⟨passed, further, rfl⟩ := Option.map_eq_some_iff.mp found
        obtain ⟨more, rfl, all⟩ := ih further
        refine ⟨more, rfl, fun other member => ?_⟩
        rcases mem_cons.mp member with rfl | later
        · simp only [isLabel, Bool.or_eq_true, not_or, Bool.not_eq_true] at plain
          exact ⟨by simpa using plain.1.1, plain.1.2, plain.2⟩
        · exact all other later

namespace ReadOnce

variable {once : ReadOnce} {m : Method} {l : LocalId} {stmt : StmtId} {value : Expr}

theorem definition?_spec (found : once.definition? m l = some (stmt, value)) :
    once.uses.getD l 0 = 1 ∧ once.phiUses.getD l 0 = 0 ∧ once.defs.getD l none = some stmt ∧
      ∃ target, m.action stmt = .assign target value := by
  unfold definition? at found
  split at found
  · cases found
  next counts =>
    simp only [Bool.or_eq_true, bne_iff_ne, ne_eq, not_or, Decidable.not_not] at counts
    split at found
    · cases found
    next id noted =>
      split at found
      · cases found
      · split at found
        · cases found
        next action =>
          cases found
          exact ⟨counts.1, counts.2, noted, _, action⟩
        · cases found

theorem candidate?_spec {nodes : List Expr}
    (found : once.candidate? m before nodes = some (l, stmt, value)) :
    ∃ later node earlier between, nodes = later ++ node :: earlier ∧ node.local? = some l ∧
      once.definition? m l = some (stmt, value) ∧ passedOver m stmt before = some between ∧
      (value.isPure = true ∨
        (∀ id ∈ between, (m.action id).isPure = true) ∧ earlier.all Expr.nodeIsPure = true) := by
  induction nodes with
  | nil => cases found
  | cons node rest ih =>
    rw [candidate?] at found
    rw [Option.orElse_eq_orElse, Option.orElse_eq_or, Option.or_eq_some_iff] at found
    rcases found with here | ⟨-, later⟩
    · obtain ⟨id, reads, here⟩ := Option.bind_eq_some_iff.mp here
      obtain ⟨⟨at_, v⟩, definition, here⟩ := Option.bind_eq_some_iff.mp here
      obtain ⟨between, passed, here⟩ := Option.bind_eq_some_iff.mp here
      split at here
      next moves =>
        cases here
        refine ⟨[], node, rest, between, rfl, reads, definition, passed, ?_⟩
        simpa using moves
      · cases here
    · obtain ⟨skipped, read, earlier, between, rfl, others⟩ := ih later
      exact ⟨node :: skipped, read, earlier, between, rfl, others⟩

end ReadOnce

/-! ## Reads after a move -/

theorem count_flatMap_replaced (other : x ≠ l) (ids value : List LocalId) :
    (ids.flatMap fun id => if id = l then value else [id]).count x =
      ids.count x + ids.count l * value.count x := by
  induction ids with
  | nil => simp
  | cons id ids ih =>
    rw [flatMap_cons, count_append, ih, count_cons, count_cons]
    by_cases same : id = l
    · subst same
      simp only [if_true, beq_self_eq_true, Nat.add_mul, Nat.one_mul]
      simp only [beq_iff_eq, if_neg other.symm]
      omega
    · simp [same, count_singleton]
      omega

theorem Folds.count_target {source target : Method} {f : Fold} (folds : Folds source target f)
    (proper : source.Proper) (other : x ≠ f.l) :
    (target.actions.flatMap uses).count x = (source.actions.flatMap uses).count x := by
  have reader := proper.operands _ folds.mem_reader
  have definition : (assign f.l f.value).uses = f.value.uses := by
    rw [uses_eq]
    simp [parts]
  rw [folds.source_eq, folds.target_eq]
  simp only [flatMap_append, flatMap_cons, count_append, definition,
    reader.uses_replaceLocal, count_flatMap_replaced other, (folds.count_eq proper).1]
  omega

/-! ## The body on the way -/

namespace Method

variable {m : Method} {before rest : List StmtId}

/-- The body when some statements are in front, the nearest first, and some are to come. -/
def halfway (m : Method) (before rest : List StmtId) : Method :=
  { m with order := (before.reverse ++ rest).toArray }

@[simp] theorem halfway_order : (m.halfway before rest).order.toList = before.reverse ++ rest := rfl

@[simp] theorem halfway_actions : (m.halfway before rest).actions =
    (before.reverse ++ rest).map m.action := rfl

theorem halfway_cons (id : StmtId) : m.halfway before (id :: rest) = m.halfway (id :: before) rest := by
  simp [halfway]

/-- Writes a statement over another. -/
def overwrite (m : Method) (id : StmtId) (s : Stmt) : Method :=
  { m with stmts := m.stmts.setIfInBounds id s }

theorem action_overwrite (made : id < m.stmts.size) (s : Stmt) (other : StmtId) :
    (m.overwrite id s).action other = if other = id then s.action else m.action other := by
  simp only [action, stmt, overwrite, getD_set, made, and_true]
  split <;> rfl

theorem map_action_overwrite (made : id < m.stmts.size) (s : Stmt) {ids : List StmtId}
    (absent : id ∉ ids) : ids.map (m.overwrite id s).action = ids.map m.action := by
  refine map_congr_left fun other member => ?_
  rw [action_overwrite made, if_neg]
  rintro rfl
  exact absent member

end Method

/-- What the pass relies on while it goes over the body. -/
structure ReadOnce.Ready (once : ReadOnce) (m : Method) (before rest : List StmtId) : Prop where
  tidy : (m.halfway before rest).Tidy
  proper : (m.halfway before rest).Proper
  single : (m.halfway before rest).SingleAssignment
  /-- A local that is still defined, and was read once, is read once. -/
  counts : ∀ l, (m.halfway before rest).Defines l → once.uses.getD l 0 = 1 →
    ((m.halfway before rest).actions.flatMap Action.uses).count l = 1
  joined : ∀ l, once.uses.getD l 0 = 1 → once.phiUses.getD l 0 = 0 →
    ∀ a ∈ (m.halfway before rest).actions, ∀ arg ∈ a.phiArgs, arg.value ≠ l
  noted : ∀ l stmt, once.defs.getD l none = some stmt → (m.action stmt).defines? = some l

namespace ReadOnce

variable {once : ReadOnce} {m : Method} {before rest : List StmtId} {reader stmt : StmtId}
  {l : LocalId} {value : Expr}

theorem Ready.move (ready : once.Ready m before (reader :: rest))
    (isReader : (m.action reader).isReader = true)
    (found : once.candidate? m before (m.action reader).evalOrder.reverse = some (l, stmt, value))
    (line : Option Nat) :
    (∃ f, Folds (m.halfway before (reader :: rest))
      ((m.overwrite reader ⟨(m.action reader).replaceLocal l value, line⟩).halfway
        (before.erase stmt) (reader :: rest)) f) ∧
      once.Ready (m.overwrite reader ⟨(m.action reader).replaceLocal l value, line⟩)
        (before.erase stmt) (reader :: rest) := by
  obtain ⟨later, node, earlier, between, nodes, reads, definition, passed, moves⟩ :=
    candidate?_spec found
  obtain ⟨usedOnce, unjoined, noted, target, action⟩ := definition?_spec definition
  obtain ⟨more, rfl, plain⟩ := passedOver_spec passed
  obtain rfl : target = l := by
    have same := ready.noted l stmt noted
    rw [action] at same
    exact Option.some.inj same
  have split : (m.action reader).evalOrder = earlier.reverse ++ node :: later.reverse := by
    rw [← reverse_reverse (m.action reader).evalOrder, nodes]
    simp
  have nodup := ready.tidy.nodup
  rw [Method.halfway_order] at nodup
  -- The definition and the reader stand once.
  have first : (more.reverse ++ stmt :: (between.reverse ++ reader :: rest)).Nodup := by
    simpa using nodup
  have second : ((more.reverse ++ stmt :: between.reverse) ++ reader :: rest).Nodup := by
    simpa using nodup
  have apart := (nodup_cons.mp (nodup_middle.mp first)).1
  have apartReader := (nodup_cons.mp (nodup_middle.mp second)).1
  simp only [mem_append, mem_reverse, mem_cons, not_or] at apart apartReader
  have made : reader < m.stmts.size := ready.tidy.made reader (by simp)
  have erased : (between ++ stmt :: more).erase stmt = between ++ more := by
    rw [erase_append_right _ apart.2.1, erase_cons_head]
  rw [erased]
  let f : Fold :=
    { before := more.reverse.map m.action, l := target, value
      between := between.reverse.map m.action, reader := m.action reader
      after := rest.map m.action }
  let written : Stmt := ⟨(m.action reader).replaceLocal target value, line⟩
  have readerPlain := plain_of_isReader isReader
  have changed := m.action_overwrite made written
  have source_eq : (m.halfway (between ++ stmt :: more) (reader :: rest)).actions =
      f.before ++ .assign f.l f.value :: (f.between ++ f.reader :: f.after) := by
    simp [f, action]
  have target_eq : ((m.overwrite reader written).halfway (between ++ more) (reader :: rest)).actions =
      f.before ++ (f.between ++ f.reader.replaceLocal f.l f.value :: f.after) := by
    rw [Method.halfway_actions, reverse_append, map_append, map_append, map_cons,
      m.map_action_overwrite made written fun here => apartReader.1.1 (mem_reverse.mp here),
      m.map_action_overwrite made written fun here => apartReader.1.2.2 (mem_reverse.mp here),
      m.map_action_overwrite made written apartReader.2, changed, if_pos rfl, append_assoc]
  have properReader : (m.action reader).Proper := ready.proper.operands _ (by simp)
  have tidyTarget :
      ((m.overwrite reader written).halfway (between ++ more) (reader :: rest)).Tidy := by
    have fewer : ((between ++ more).reverse ++ reader :: rest).Sublist
        ((between ++ stmt :: more).reverse ++ reader :: rest) :=
      ((List.Sublist.refl between).append (sublist_cons_self stmt more)).reverse.append
        (List.Sublist.refl _)
    refine ready.tidy.of_same_labels ready.tidy.plain (fewer.nodup nodup) ?_ ?_ fun _ => rfl
    · intro id member
      exact (ready.tidy.made id (fewer.subset member)).trans_eq Array.size_setIfInBounds.symm
    · intro id x
      show _ ∧ (m.overwrite reader written).action id = _ ↔ _ ∧ m.action id = _
      rw [changed]
      constructor
      · rintro ⟨member, label⟩
        split at label
        · have plainWritten : written.action.label? = none :=
            (label?_replaceLocal ..).trans readerPlain.1
          rw [label] at plainWritten
          cases plainWritten
        · exact ⟨fewer.subset member, label⟩
      · rintro ⟨member, label⟩
        have other : id ≠ reader := by
          rintro rfl
          rw [label] at readerPlain
          cases readerPlain.1
        have notStmt : id ≠ stmt := by
          rintro rfl
          cases action.symm.trans label
        rw [if_neg other]
        refine ⟨?_, label⟩
        simp only [Method.halfway_order, mem_append, mem_reverse, mem_cons] at member ⊢
        rcases member with (here | same | here) | here
        · exact .inl (.inl here)
        · exact absurd same notStmt
        · exact .inl (.inr here)
        · exact .inr here
  have folds : Folds (m.halfway (between ++ stmt :: more) (reader :: rest))
      ((m.overwrite reader written).halfway (between ++ more) (reader :: rest)) f := by
    refine ⟨ready.tidy, tidyTarget, source_eq, target_eq, rfl, ?_, isReader, ?_, ?_, ?_, ?_⟩
    · intro a member
      obtain ⟨id, listed, rfl⟩ := mem_map.mp member
      exact plain id (mem_reverse.mp listed)
    · refine ready.counts target ⟨_, mem_map.mpr ⟨stmt, by simp, rfl⟩, ?_⟩ usedOnce
      exact ready.noted target stmt noted
    · exact properReader.mem_inputs (by rw [split]; simp) reads
    · exact ready.joined target usedOnce unjoined
    · rcases moves with pure | ⟨passes, pure⟩
      · exact .inl pure
      · refine .inr ⟨fun a member => ?_, properReader.firstRead split reads (by simpa using pure)⟩
        obtain ⟨id, listed, rfl⟩ := mem_map.mp member
        exact passes id (mem_reverse.mp listed)
  refine ⟨⟨f, folds⟩, tidyTarget, folds.proper_target ready.proper,
    folds.singleAssignment_target ready.proper ready.single, ?_, ?_, ?_⟩
  · intro x defined counted
    obtain ⟨before, other⟩ := folds.defines_of_target ready.single defined
    rw [folds.count_target ready.proper other]
    exact ready.counts x before counted
  · intro x counted none a member
    obtain ⟨position, here⟩ := mem_iff_getElem?.mp member
    obtain ⟨original, there, -, -, sameArgs, -⟩ := folds.exists_get here
    rw [← sameArgs]
    exact ready.joined x counted none original (mem_of_getElem? there)
  · intro x id noted
    rw [changed]
    split
    next own =>
      subst own
      exact (defines?_replaceLocal ..).trans (ready.noted x id noted)
    · exact ready.noted x id noted

theorem Ready.fill (fuel : Nat) (ready : once.Ready m before (reader :: rest))
    (isReader : (m.action reader).isReader = true) :
    (m.halfway before (reader :: rest)).Folded
        ((once.fill reader fuel m before).1.halfway (once.fill reader fuel m before).2
          (reader :: rest)) ∧
      once.Ready (once.fill reader fuel m before).1 (once.fill reader fuel m before).2
        (reader :: rest) := by
  induction fuel generalizing m before with
  | zero => exact ⟨.refl, ready⟩
  | succ fuel ih =>
    rw [fill]
    split
    · exact ⟨.refl, ready⟩
    next l stmt value found =>
      obtain ⟨⟨f, folds⟩, later⟩ := ready.move isReader found
        ((m.stmt reader).line <|> (m.stmt stmt).line)
      have plain : m.chain.isNone = true := Option.isNone_iff_eq_none.mpr ready.tidy.plain
      have made : reader < m.stmts.size := ready.tidy.made reader (by simp)
      have stillReader : ((m.overwrite reader ⟨(m.action reader).replaceLocal l value,
          (m.stmt reader).line <|> (m.stmt stmt).line⟩).action reader).isReader = true := by
        rw [m.action_overwrite made, if_pos rfl]
        generalize m.action reader = a at isReader
        cases a <;> exact isReader
      obtain ⟨folded, done⟩ := ih later stillReader
      dsimp only
      rw [if_pos plain]
      exact ⟨.head ⟨f, folds⟩ folded, done⟩

theorem Ready.next {id : StmtId} (ready : once.Ready m before (id :: rest)) :
    once.Ready m (id :: before) rest := by
  obtain ⟨tidy, proper, single, counts, joined, noted⟩ := ready
  rw [Method.halfway_cons] at tidy proper single counts joined
  exact ⟨tidy, proper, single, counts, joined, noted⟩

theorem Ready.fillAll (ready : once.Ready m before rest) :
    (m.halfway before rest).Folded
        ((once.fillAll rest m before).1.halfway (once.fillAll rest m before).2 []) ∧
      once.Ready (once.fillAll rest m before).1 (once.fillAll rest m before).2 [] := by
  induction rest generalizing m before with
  | nil => exact ⟨.refl, ready⟩
  | cons id rest ih =>
    have plain : m.chain.isNone = true := Option.isNone_iff_eq_none.mpr ready.tidy.plain
    rw [ReadOnce.fillAll]
    dsimp only
    rw [if_pos plain]
    split
    next isReader =>
      obtain ⟨folded, done⟩ := ready.fill (before.length + 1) isReader
      obtain ⟨foldedAll, doneAll⟩ := ih done.next
      rw [← Method.halfway_cons] at foldedAll
      exact ⟨folded.trans foldedAll, doneAll⟩
    · rw [Method.halfway_cons]
      exact ih ready.next

end ReadOnce

namespace Method

variable {m : Method}

/-- What the pass counts before it moves anything. -/
abbrev readOnce (m : Method) : ReadOnce :=
  { uses := m.useCounts.1, phiUses := m.useCounts.2, defs := m.defs }

theorem inlineValues_eq (m : Method) : m.inlineValues =
    if (m.readOnce.fillAll m.order.toList m []).1.chain.isNone then
      { (m.readOnce.fillAll m.order.toList m []).1 with
        order := (m.readOnce.fillAll m.order.toList m []).2.reverse.toArray }
    else (m.readOnce.fillAll m.order.toList m []).1 := rfl

section

variable (tidy : m.Tidy) (proper : m.Proper) (single : m.SingleAssignment)

include tidy proper single

theorem Tidy.ready : m.readOnce.Ready m [] m.order.toList := by
  have whole : m.halfway [] m.order.toList = m := by
    simp [halfway]
  have inside : ∀ l, m.useCounts.1.getD l 0 = 1 → l < m.locals.size := by
    intro l one
    by_contra outside
    rw [getD_useCounts, if_neg outside] at one
    cases one
  refine ⟨?_, ?_, ?_, ?_, ?_, ?_⟩ <;> try rw [whole]
  · exact tidy
  · exact proper
  · exact single
  · intro l _ one
    rw [← one, getD_useCounts, if_pos (inside l one)]
  · intro l one none a member arg listed same
    rw [getD_useCounts_joined, if_pos (inside l one), count_eq_zero] at none
    exact none (mem_flatMap.mpr ⟨a, member, mem_map.mpr ⟨arg, listed, same⟩⟩)
  · exact fun l stmt noted => (m.mem_of_getD_defs noted).2

theorem Tidy.inlineValues_folded : m.Folded m.inlineValues := by
  obtain ⟨folded, done⟩ := (tidy.ready proper single).fillAll
  have whole : m.halfway [] m.order.toList = m := by
    simp [halfway]
  rw [whole] at folded
  rw [inlineValues_eq]
  generalize m.readOnce.fillAll m.order.toList m [] = result at folded done ⊢
  have plain : result.1.chain.isNone = true := Option.isNone_iff_eq_none.mpr done.tidy.plain
  rw [if_pos plain]
  simpa [halfway] using folded

end

/-- Moving values keeps what a method does. In every world the run of the method with its values
moved goes beside that of the method before, which goes on as long as it does. As long as the latter
is not stuck, the same requests have been made on the same values with the same answers, and both
return the same, throw the same or go on; when both go on, they have come to the same block in the
same way, so that what was thrown was thrown to the same handler, and the locals that are still
defined have the values they had. -/
theorem inlineValues_keeps_runs {V : Type} (w : World V) (m : Method) (tidy : m.Tidy)
    (proper : m.Proper) (single : m.SingleAssignment) :
    ∃ pace : Nat → Nat, Monotone pace ∧ (∀ bound, ∃ k, bound ≤ pace k) ∧
      ∀ k, m.run w (pace k) ≠ .stuck →
        (m.run w (pace k)).seen State.history = (m.inlineValues.run w k).seen State.history ∧
          ∀ s t, m.run w (pace k) = .running s → m.inlineValues.run w k = .running t →
            s.Agrees m m.inlineValues t := by
  obtain ⟨-, -, -, takes⟩ := (tidy.inlineValues_folded proper single).keeps proper single
  obtain ⟨pace, monotone, unbounded, beside⟩ := takes w
  refine ⟨pace, monotone, unbounded, fun k unstuck => ⟨?_, fun s t here there => ?_⟩⟩
  · exact (beside k).seen unstuck fun s t agrees => agrees.history
  · have both := beside k
    rw [here, there] at both
    cases both with
    | running agrees => exact agrees

/-- Divides the length of an array by twice its parameter, and gives what is thrown. -/
def quotient : Method :=
  { owner := ∅, name := ∅, desc := ∅, access := default, params := [], result := ∅
    locals := Array.replicate 5 { type := .int }
    traps := [⟨.number 0, .number 1, .number 2, ∅⟩]
    stmts := #[
      ⟨.identity 0 (.leaf (.param 0)), none⟩,
      ⟨.label (.number 0), none⟩,
      ⟨.assign 1 (.node .arrayLength [.read 0]), none⟩,
      ⟨.assign 2 (.node (.binary .add .int) [.read 0, .read 0]), none⟩,
      ⟨.assign 3 (.node (.binary .div .int) [.read 1, .read 2]), none⟩,
      ⟨.return (some (.read 3)), none⟩,
      ⟨.label (.number 1), none⟩,
      ⟨.label (.number 2), none⟩,
      ⟨.identity 4 (.leaf (.caught .int ∅)), none⟩,
      ⟨.return (some (.read 4)), none⟩]
    order := #[0, 1, 2, 3, 4, 5, 6, 7, 8, 9]
    placed := #[some 1, some 6, some 7] }

def quotientNotes (position : Nat) : Note :=
  [.entry, ⟨[0], Note.entry.ways⟩, ⟨[0], Note.entry.ways⟩, ⟨[0, 1], Note.entry.ways⟩,
    ⟨[0, 1, 2], Note.entry.ways⟩, ⟨[0, 1, 2, 3], Note.entry.ways⟩, ⟨[0], []⟩,
    ⟨[0], [((.nowhere, true), [])]⟩, ⟨[0], [((.nowhere, true), [])]⟩,
    ⟨[0, 4], [((.nowhere, true), [])]⟩].getD position ⟨[], []⟩

/-- A world in which an array is its length and division by zero throws. -/
def quotientWorld : World Nat where
  value _ values := values.sum
  answer _ _ values :=
    match values with
    | [x] => .ok x
    | [x, y] => if y = 0 then .error 0 else .ok (x / y)
    | _ => .ok 0
  holds _ x y := x == y.getD 0
  key _ := 0
  takes _ _ := true
  receiver := 0
  param _ := 7

/-- All values have moved into the statement that returns. -/
example : quotient.inlineValues.actions.map defines? =
    [some 0, none, none, none, none, some 4, none] := by decide

/-- The run that divides after its values have moved goes beside the run that divides step by step.
-/
theorem inlineValues_keeps_runs_quotient :
    (quotient.Tidy ∧ quotient.Proper ∧ quotient.SingleAssignment) ∧
      ∃ pace : Nat → Nat, Monotone pace ∧ (∀ bound, ∃ k, bound ≤ pace k) ∧
        ∀ k, quotient.run quotientWorld (pace k) ≠ .stuck →
          (quotient.run quotientWorld (pace k)).seen State.history =
              (quotient.inlineValues.run quotientWorld k).seen State.history ∧
            ∀ s t, quotient.run quotientWorld (pace k) = .running s →
              quotient.inlineValues.run quotientWorld k = .running t →
              s.Agrees quotient quotient.inlineValues t := by
  have tidy : quotient.Tidy := by decide
  have proper : quotient.Proper := by decide
  have noted : quotient.Noted quotientNotes := by with_unfolding_all decide
  exact ⟨⟨tidy, proper, noted.singleAssignment⟩,
    inlineValues_keeps_runs quotientWorld quotient tidy proper noted.singleAssignment⟩

end Method

end DexLift.Ir
