import DexLift.Proofs.Simplify.Sweeping
import DexLift.Simplify.Constants
import Mathlib

/-!
# Writing constants where they are read keeps what a method does

A local that a constant defines has the value of the constant wherever it is set,
since nothing else sets it. What is known about the kind of the local is written
into the constant, so the two are the same value as long as worlds do not tell
constants apart by how much is known of their kind.
-/

namespace DexLift.Ir

open List

/-- Worlds in which the value of a constant is that of its bits: it does not depend on how much is
known of its kind. -/
def World.RawConstants {V : Type} (w : World V) : Prop :=
  ∀ (type : Ty) (kind : Kind) (value : Constant),
    w.value (.const { type with kind } value) [] = w.value (.const type value) []

namespace Method

variable {m : Method} {position : Nat} {x : LocalId} {V : Type} {w : World V}

/-! ## Locals that constants define -/

theorem env_of_constant (tidy : m.Tidy) (proper : m.Proper) (single : m.SingleAssignment)
    {type : Ty} {value : Constant}
    (found : m.actions[position]? = some (.assign x (.leaf (.const type value)))) {done : Nat}
    {s : State V} (reached : m.run w done = .running s) {v : V} (set : s.env x = some v) :
    v = w.value (.const type value) [] := by
  induction done generalizing s with
  | zero =>
    obtain rfl := Status.running.inj reached
    cases set
  | succ done ih =>
    have step : (m.run w done).step w m = .running s := reached
    cases before : m.run w done with
    | running r =>
      rw [before] at step
      obtain ⟨a, middle, next, exceptional, stepped, rfl⟩ := State.exists_stepped tidy proper step
      rw [State.goTo_env] at set
      by_cases own : (if exceptional then none else a.defines?) = some x
      · have defines : a.defines? = some x := by grind
        have same := single.once r.position position a _ x stepped.found found defines rfl
        have unstuck : r.step w m ≠ .stuck := by
          rw [show r.step w m = _ from step]
          exact nofun
        obtain ⟨history, env, move, performed, after⟩ :=
          State.step_eq_of_plain (same ▸ found) rfl unstuck
        cases performed
        rw [show r.step w m = _ from step] at after
        have envs := congrArg (fun s : State V => s.env x) (Status.running.inj after)
        simp only [State.goTo_env] at envs
        rw [set] at envs
        exact (Option.some.inj (envs.trans (if_pos rfl)))
      · rw [stepped.kept x own] at set
        exact ih before set
    | _ =>
      rw [before] at step
      cases step

/-! ## The table of constants -/

def noteConstant (m : Method) (table : Array (Option Expr)) (action : Action) :
    Array (Option Expr) :=
  match m.constantOf? m.useCounts.2 action with
  | some (target, value) => table.setIfInBounds target (some value)
  | none => table

def constants (m : Method) : Array (Option Expr) :=
  m.actions.foldl m.noteConstant (Array.replicate m.locals.size none)

/-- Whether a statement defines a constant that is written where it is read. -/
def isConstant (m : Method) (id : StmtId) : Bool :=
  (m.constantOf? m.useCounts.2 (m.action id)).isSome

/-- What stands for a local where it is read. -/
def constantTable (m : Method) : Readings := fun l => (m.constants.getD l none).getD (.read l)

theorem InSsa.constantOf?_eq_some (inSsa : m.InSsa) {a : Action} (listed : a ∈ m.actions) {e : Expr}
    (constant : m.constantOf? m.useCounts.2 a = some (x, e)) :
    ∃ type kind value, a = .assign x (.leaf (.const type value)) ∧
      e = .leaf (.const { type with kind } value) ∧ m.useCounts.2.getD x 0 = 0 := by
  unfold constantOf? at constant
  split at constant
  next target type value args =>
    obtain rfl := inSsa.constants target type value args listed
    split at constant
    · cases constant
    next unread =>
      obtain ⟨rfl, rfl⟩ := Prod.mk.inj (Option.some.inj constant)
      by_cases apart : type.kind.inter (m.localType target).kind = .bottom
      · exact ⟨type, type.kind, value, rfl, by rw [if_pos apart]; rfl, by omega⟩
      · exact ⟨type, _, value, rfl, by rw [if_neg apart]; rfl, by omega⟩
  · cases constant

theorem getD_noteConstant (table : Array (Option Expr)) (a : Action) :
    (m.noteConstant table a).getD x none =
      match m.constantOf? m.useCounts.2 a with
      | some (target, value) =>
        if target = x ∧ x < table.size then some value else table.getD x none
      | none => table.getD x none := by
  unfold noteConstant
  cases m.constantOf? m.useCounts.2 a with
  | none => rfl
  | some both =>
    dsimp only
    rw [getD_set]
    split <;> grind

theorem exists_of_getD_constants {e : Expr} (noted : m.constants.getD x none = some e) :
    ∃ a ∈ m.actions, m.constantOf? m.useCounts.2 a = some (x, e) := by
  have pass : ∀ actions : List Action, actions ⊆ m.actions → ∀ table : Array (Option Expr),
      (∀ e, table.getD x none = some e →
        ∃ a ∈ m.actions, m.constantOf? m.useCounts.2 a = some (x, e)) →
      ∀ e, (actions.foldl m.noteConstant table).getD x none = some e →
        ∃ a ∈ m.actions, m.constantOf? m.useCounts.2 a = some (x, e) := by
    intro actions
    induction actions with
    | nil => exact fun _ _ known => known
    | cons a actions ih =>
      intro sub table known
      refine ih (subset_of_cons_subset sub) _ fun e noted => ?_
      rw [getD_noteConstant] at noted
      split at noted
      next target value constant =>
        split at noted
        next own =>
          cases noted
          exact ⟨a, sub mem_cons_self, own.1 ▸ constant⟩
        · exact known e noted
      · exact known e noted
  refine pass _ (Subset.refl _) _ (fun e contrary => ?_) e noted
  rw [getD_replicate] at contrary
  cases contrary

theorem InSsa.getD_constants (inSsa : m.InSsa) {a : Action} (listed : a ∈ m.actions) {e : Expr}
    (constant : m.constantOf? m.useCounts.2 a = some (x, e)) :
    m.constants.getD x none = some e := by
  have defines : ∀ {a e}, a ∈ m.actions → m.constantOf? m.useCounts.2 a = some (x, e) →
      a.defines? = some x := by
    intro a e listed constant
    obtain ⟨type, kind, value, rfl, -⟩ := inSsa.constantOf?_eq_some listed constant
    rfl
  have pass : ∀ (actions : List Action) (table : Array (Option Expr)),
      table.size = m.locals.size → a ∈ actions ∨ (table.getD x none).isSome →
      ((actions.foldl m.noteConstant table).getD x none).isSome := by
    intro actions
    induction actions with
    | nil =>
      rintro table _ (contrary | known)
      · cases contrary
      · exact known
    | cons first actions ih =>
      intro table size known
      have sameSize : (m.noteConstant table first).size = m.locals.size := by
        unfold noteConstant
        split
        · exact Array.size_setIfInBounds.trans size
        · exact size
      refine ih _ sameSize ?_
      rcases known with member | before
      · rcases mem_cons.mp member with rfl | later
        · right
          rw [getD_noteConstant, constant]
          dsimp only
          rw [if_pos ⟨rfl, size ▸ inSsa.known _ listed x (defines listed constant)⟩]
          rfl
        · exact .inl later
      · right
        rw [getD_noteConstant]
        split
        · split
          · rfl
          · exact before
        · exact before
  obtain ⟨found, noted⟩ := Option.isSome_iff_exists.mp
    (pass m.actions _ Array.size_replicate (.inl listed))
  obtain ⟨other, listedOther, constantOther⟩ := exists_of_getD_constants noted
  obtain ⟨id, linked, rfl⟩ := mem_map.mp listed
  obtain ⟨idOther, linkedOther, rfl⟩ := mem_map.mp listedOther
  obtain rfl := inSsa.eq_of_defines linked linkedOther (defines listed constant)
    (defines listedOther constantOther)
  rw [constant] at constantOther
  obtain rfl := (Prod.mk.inj (Option.some.inj constantOther)).2
  exact noted

/-! ## Writing constants -/

theorem InSsa.constantTable_cases (inSsa : m.InSsa) (x : LocalId) :
    (∃ a ∈ m.actions, ∃ type kind value, a = .assign x (.leaf (.const type value)) ∧
        m.constantTable x = .leaf (.const { type with kind } value)) ∨
      m.constantTable x = .read x ∧ m.Survives (fun id => !m.isConstant id) x := by
  unfold constantTable
  cases noted : m.constants.getD x none with
  | some e =>
    obtain ⟨a, listed, constant⟩ := exists_of_getD_constants noted
    obtain ⟨type, kind, value, same, rfl, -⟩ := inSsa.constantOf?_eq_some listed constant
    exact .inl ⟨a, listed, type, kind, value, same, rfl⟩
  | none =>
    refine .inr ⟨rfl, fun id linked goes defines => ?_⟩
    obtain ⟨⟨y, e⟩, constant⟩ := Option.isSome_iff_exists.mp (by simpa [isConstant] using goes)
    have listed : m.action id ∈ m.actions := mem_map_of_mem linked
    obtain ⟨type, kind, value, same, -⟩ := inSsa.constantOf?_eq_some listed constant
    rw [same] at defines
    obtain rfl := Option.some.inj defines
    rw [inSsa.getD_constants listed constant] at noted
    cases noted

theorem InSsa.rewrites_inlineConstants (inSsa : m.InSsa) :
    m.Rewrites m.inlineConstants (fun id => !m.isConstant id) m.constantTable id := by
  have unfolded : m.inlineConstants = (m.removeWhere m.isConstant).mapActions fun a =>
      a.mapOperands (Expr.mapNodes fun e =>
        (e.local?.bind fun l => m.constants.getD l none).getD e) := rfl
  rw [unfolded]
  refine inSsa.rewrites_mapActions (fun id linked goes => ?_) ⟨fun x => ?_, fun x => ?_, fun x => ?_,
    fun x type value args same => ?_⟩ id (fun a => by cases a <;> rfl)
    fun a listed => (inSsa.proper.operands a listed).mapOperands_eq _
  · obtain ⟨⟨y, e⟩, constant⟩ := Option.isSome_iff_exists.mp goes
    obtain ⟨type, kind, value, same, -⟩ :=
      inSsa.constantOf?_eq_some (mem_map_of_mem linked) constant
    rw [same]
    rfl
  all_goals rcases inSsa.constantTable_cases x with ⟨-, -, known, kind, number, -, table⟩ | ⟨table, -⟩
  · rw [table]
    exact .inner rfl nofun
  · rw [table]
    exact .leaf rfl
  · rw [table]
    rfl
  · rw [table]
    rfl
  · rw [table]
    rfl
  · rw [table]
    rfl
  · rw [table] at same
    exact (Expr.node.inj same).2.symm
  · rw [table] at same
    cases same

/-- Writing constants where they are read keeps the form of a method and its runs in worlds where
the value of a constant is that of its bits. -/
theorem InSsa.inlineConstants (inSsa : m.InSsa) : m.inlineConstants.InSsa ∧
    (∀ x, m.inlineConstants.Defines x → m.Defines x) ∧ ∀ {V : Type} (w : World V),
      w.RawConstants → m.TakesPlace w (State.Abreast m m.inlineConstants) m.inlineConstants := by
  have rewrites := inSsa.rewrites_inlineConstants
  -- What a join picks is no constant that goes, since joins read it.
  have picked_ : ∀ {a : Action} {arg : PhiArg}, a ∈ m.actions → arg ∈ a.phiArgs →
      m.Survives (fun id => !m.isConstant id) arg.value := by
    intro a arg listed member id linked goes defines
    obtain ⟨⟨y, e⟩, constant⟩ := Option.isSome_iff_exists.mp (by simpa [isConstant] using goes)
    have found : m.action id ∈ m.actions := mem_map_of_mem linked
    obtain ⟨type, kind, value, same, -, unread⟩ := inSsa.constantOf?_eq_some found constant
    have inside := inSsa.known _ found _ defines
    rw [same] at defines
    obtain rfl := Option.some.inj defines
    rw [getD_useCounts_joined, if_pos inside, count_eq_zero] at unread
    exact unread (mem_flatMap.mpr ⟨a, listed, mem_map_of_mem member⟩)
  have backed : m.Backed m.inlineConstants fun id => !m.isConstant id := by
    refine rewrites.backed inSsa ?_ fun _ _ _ _ _ here _ _ old picks entered =>
      ⟨picked_ (mem_of_getElem? (getElem?_actions here)) (picked_spec picks).1, entered⟩
    intro position id assigned entered origin here kept trail x used known y read
    rcases inSsa.constantTable_cases x with ⟨-, -, type, kind, value, -, table⟩ | ⟨table, survives⟩
    · rw [table] at read
      cases read
    · rw [table] at read
      obtain rfl := mem_singleton.mp read
      exact ⟨survives, known⟩
  refine ⟨rewrites.inSsa_target inSsa backed, fun x defined =>
    (rewrites.defines_of_target inSsa defined).1, fun {V} w raw =>
      rewrites.takesPlace inSsa backed ⟨?_, fun _ _ _ _ _ _ _ _ => rfl⟩⟩
  intro done s id reached here kept x used v set env caught history alike
  have found := getElem?_actions (m := m) here
  rcases inSsa.constantTable_cases x with ⟨a, listed, type, kind, value, rfl, table⟩ | ⟨table, survives⟩
  · obtain ⟨position, there⟩ := mem_iff_getElem?.mp listed
    have same := env_of_constant inSsa.tidy inSsa.proper inSsa.single there reached set
    rw [table, same, ← raw type kind value]
    rfl
  · rw [table, Expr.read, Expr.leaf, evaluate,
      alike x survives (inSsa.single.knows found used), set]
    rfl

/-! ## Both passes -/

/-- Replacing copies, and writing constants where they are read, keeps what a method does. In every
world the run of the method after either pass goes beside that of the method before: the same
requests are made on the same values in the same order, both runs come to the same statements and
take the same branches, and both return the same or throw the same. Constants have to be worth the
same whatever is known of their kind, since writing them notes what is known of the local. After
replacing copies no statement copies a local; no join reads one other local only, apart from its
own, and a join that is reached reads another one than its own; and a definition that may go is left
only when something needs it. -/
theorem removals_keep_runs (m : Method) (inSsa : m.InSsa) :
    (∀ {V : Type} (w : World V), m.TakesPlace w (State.Abreast m m.removeCopies) m.removeCopies) ∧
    (∀ {V : Type} (w : World V), w.RawConstants →
      m.TakesPlace w (State.Abreast m m.inlineConstants) m.inlineConstants) ∧
    m.removeCopies.Uncopied ∧
    (∀ position target args assigned origin entered,
      m.removeCopies.actions[position]? = some (.phi target args) →
      m.removeCopies.Trail position assigned origin entered → ∃ arg ∈ args, arg.value ≠ target) ∧
    ∀ a ∈ m.removeCopies.actions, a.isDeletable = true →
      ∀ x, a.defines? = some x → m.removeCopies.Needed x := by
  obtain ⟨replaces, uncopied, needed⟩ := inSsa.removeCopies
  refine ⟨replaces.runs, inSsa.inlineConstants.2.2, uncopied, ?_, needed⟩
  intro position target args assigned origin entered found trail
  obtain ⟨arg, member, apart⟩ :=
    exists_operand_of_phi replaces.inSsa.single replaces.inSsa.whole found trail
  refine ⟨arg, member, ?_⟩
  rintro rfl
  exact apart (.refl _)

/-- Adds its parameter to a sum until it has come to seven. A copy of the parameter is carried
around the loop by a join. -/
def adding : Method :=
  { owner := ∅, name := ∅, desc := ∅, access := default, params := [], result := ∅
    locals := Array.replicate 7 { type := .int }
    stmts := #[
      ⟨.label (.number 0), none⟩,
      ⟨.assign 0 (.number .int 0), none⟩,
      ⟨.identity 1 (.leaf (.param 0)), none⟩,
      ⟨.assign 2 (.read 1), none⟩,
      ⟨.label (.number 1), none⟩,
      ⟨.phi 3 [⟨.number 0, 0, false⟩, ⟨.number 1, 5, false⟩], none⟩,
      ⟨.phi 4 [⟨.number 0, 2, false⟩, ⟨.number 1, 4, false⟩], none⟩,
      ⟨.assign 5 (.node (.binary .add .int) [.read 3, .read 4]), none⟩,
      ⟨.assign 6 (.number .int 7), none⟩,
      ⟨.branch .lt (.read 5) (some (.read 6)) (.number 1), none⟩,
      ⟨.return (some (.read 5)), none⟩]
    order := #[0, 1, 2, 3, 4, 5, 6, 7, 8, 9, 10]
    placed := #[some 0, some 4] }

def addingNotes (position : Nat) : Note :=
  { known := range (min 7 (position - if position < 5 then 1 else 2))
    ways :=
      if position < 4 then Note.entry.ways
      else [((.number 0, false), [0, 1, 2]), ((.number 1, false), [0, 1, 2, 3, 4, 5, 6])] }

/-- The sum is a join still, and reads the parameter; its start stays a local since the join reads
it. -/
example : adding.removeCopies.actions.map Action.uses = [[], [], [], [], [], [3, 1], [], [5, 6], [5]] ∧
    adding.inlineConstants.actions.map Action.uses = [[], [], [], [1], [], [], [], [3, 4], [5], [5]] := by
  decide +kernel

/-- A world in which numbers are added, and a branch compares them. -/
def addingWorld : World Nat where
  value head values :=
    match head with
    | .const _ (.number bits) => bits.toNat
    | _ => values.sum
  answer _ _ _ := .ok 0
  holds _ x y := x < y.getD 0
  key _ := 0
  takes _ _ := true
  receiver := 0
  param _ := 2

/-- The loop without the copy goes beside the loop that carries it, and so does the loop with the
bound written into the branch. -/
theorem removals_keep_runs_adding : (adding.InSsa ∧ addingWorld.RawConstants) ∧
    adding.TakesPlace addingWorld (State.Abreast adding adding.removeCopies) adding.removeCopies ∧
    adding.TakesPlace addingWorld (State.Abreast adding adding.inlineConstants)
      adding.inlineConstants ∧ adding.removeCopies.Uncopied := by
  have noted : adding.Noted addingNotes := by with_unfolding_all decide
  have inSsa : adding.InSsa := noted.inSsa (by decide) (by decide)
    (by decide) (by decide) (by decide)
  have raw : addingWorld.RawConstants := by
    rintro type kind (bits | text | desc) <;> rfl
  obtain ⟨copies, constants, uncopied, -⟩ := removals_keep_runs adding inSsa
  exact ⟨⟨inSsa, raw⟩, copies addingWorld, constants addingWorld raw, uncopied⟩

/-- Returns in front of a loop, whose join carries itself. -/
def circling : Method :=
  { owner := ∅, name := ∅, desc := ∅, access := default, params := [], result := ∅
    locals := #[{ type := .int }]
    stmts := #[
      ⟨.return none, none⟩,
      ⟨.label (.number 0), none⟩,
      ⟨.phi 0 [⟨.number 0, 0, false⟩], none⟩,
      ⟨.branch .eq (.read 0) none (.number 0), none⟩,
      ⟨.return none, none⟩]
    order := #[0, 1, 2, 3, 4]
    placed := #[some 1] }

def circlingNotes : Nat → Note
  | 0 => .entry
  | _ => ⟨[0], [((.number 0, false), [0])]⟩

/-- Where control does not come, a join that reads itself only is left. -/
theorem joins_itself_circling : circling.InSsa ∧ ¬ ∀ target args,
    .phi target args ∈ circling.removeCopies.actions → ∃ arg ∈ args, arg.value ≠ target := by
  have noted : circling.Noted circlingNotes := by with_unfolding_all decide
  have inSsa : circling.InSsa := noted.inSsa (by decide) (by decide) (by decide) (by decide)
    (by decide)
  have left : .phi 0 [⟨.number 0, 0, false⟩] ∈ circling.removeCopies.actions :=
    mem_of_getElem? (i := 2) (by with_unfolding_all rfl)
  refine ⟨inSsa, fun apart => ?_⟩
  obtain ⟨arg, member, other⟩ := apart _ _ left
  rw [mem_singleton.mp member] at other
  exact other rfl

end Method

end DexLift.Ir
