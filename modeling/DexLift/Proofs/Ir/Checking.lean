import DexLift.Proofs.Ir.Joining
import Mathlib.Tactic.MkIffOfInductiveProp

/-!
# Checking single assignment

Paths and trails are without number when a body has a loop. What they all have
assigned can be noted beside the body: for each position the locals that are
assigned, and for each way into its block the locals that were assigned on that
way. Notes that hold at the entry and are carried along every edge hold of all
trails, and whether they are is a matter of computing.
-/

namespace DexLift.Ir

open List

/-! ## Proper expressions -/

mutual

/-- Whether only nodes that evaluate their operands have some. -/
def Expr.isProper : Expr → Bool
  | .node head args => if head.isLeaf then args.isEmpty else Expr.areProper args

/-- The same for several expressions. -/
def Expr.areProper : List Expr → Bool
  | [] => true
  | e :: rest => e.isProper && Expr.areProper rest

end

theorem Expr.areProper_eq (es : List Expr) : Expr.areProper es = es.all Expr.isProper := by
  induction es with
  | nil => rfl
  | cons e rest ih => rw [areProper, ih, all_cons]

theorem Expr.isProper_iff (e : Expr) : e.isProper = true ↔ e.Proper := by
  constructor
  · intro checked
    induction e using Expr.isProper.induct
      (motive_2 := fun es => es.all Expr.isProper = true → ∀ e ∈ es, e.Proper) with
    | case1 head args isLeaf =>
      rw [isProper, if_pos isLeaf, List.isEmpty_iff] at checked
      subst checked
      exact .leaf isLeaf
    | case2 head args inner ih =>
      rw [isProper, if_neg inner, areProper_eq] at checked
      exact .inner (by simpa using inner) (ih checked)
    | case3 _ e member => cases member
    | case4 e rest first later both other member =>
      rw [all_cons, Bool.and_eq_true] at both
      rcases mem_cons.mp member with rfl | inRest
      · exact first both.1
      · exact later both.2 other inRest
  · intro proper
    induction proper with
    | leaf isLeaf =>
      rw [Expr.leaf, isProper, if_pos isLeaf]
      rfl
    | inner inner _ ih =>
      rw [isProper, if_neg (by simp [inner]), areProper_eq, all_eq_true]
      exact ih

instance (e : Expr) : Decidable e.Proper := decidable_of_iff _ e.isProper_iff

instance (a : Action) : Decidable a.Proper := inferInstanceAs (Decidable (∀ e ∈ a.parts, e.Proper))

/-- What is asked of a statement in a proper method. -/
def Action.WellFormed (a : Action) : Prop :=
  a.Proper ∧ match a with
    | .identity _ e => e.canThrow = false
    | .assign _ e => e.receives = false
    | _ => True

instance (a : Action) : Decidable a.WellFormed := by
  unfold Action.WellFormed
  cases a <;> infer_instance

theorem Method.proper_iff (m : Method) : m.Proper ↔ ∀ a ∈ m.actions, a.WellFormed := by
  constructor
  · rintro ⟨operands, names, received⟩ a member
    refine ⟨operands a member, ?_⟩
    cases a with
    | identity l e => exact names l e member
    | assign l e => exact received l e member
    | _ => trivial
  · intro all
    exact ⟨fun a member => (all a member).1, fun l e member => (all _ member).2,
      fun l e member => (all _ member).2⟩

instance (m : Method) : Decidable m.Proper := decidable_of_iff _ m.proper_iff.symm

/-! ## Notes beside a body -/

structure Note where
  /-- Locals that every path to the position has assigned. -/
  known : List LocalId
  /-- The ways into the block, and for each the locals that were assigned on it. -/
  ways : List ((Label × Bool) × List LocalId)

/-- Nothing is assigned at the entry, and no block was left. -/
def Note.entry : Note := ⟨[], [((.nowhere, false), [])]⟩

namespace Method

variable (m : Method) (notes : Nat → Note)

/-- The notes are carried along an edge, when what is defined on it is assigned behind it. -/
def CarriesNote (position next : Nat) (exceptional : Bool) (defined : List LocalId) : Prop :=
  (∀ l ∈ (notes next).known, l ∈ defined ++ (notes position).known) ∧
    ∀ way ∈ (notes position).ways, ∃ after ∈ (notes next).ways,
      after.1 = (if m.enters next then (m.blockAt position, exceptional) else way.1) ∧
        ∀ l ∈ after.2, l ∈ if m.enters next then defined ++ (notes position).known else way.2

instance (position next : Nat) (exceptional : Bool) (defined : List LocalId) :
    Decidable (m.CarriesNote notes position next exceptional defined) := by
  unfold CarriesNote
  infer_instance

/-- Notes that hold at the entry and along every edge, and are enough for every read, and no local
is defined twice. -/
@[mk_iff]
structure Noted : Prop where
  entry : (notes 0).known = [] ∧ ((.nowhere, false), []) ∈ (notes 0).ways
  edges : ∀ position < m.actions.length,
    (∀ next ∈ (Flow.ofMethod m).succsOf position,
      m.CarriesNote notes position next false (m.definedAt position)) ∧
    ∀ next ∈ (Flow.ofMethod m).exSuccsOf position, m.CarriesNote notes position next true []
  once : ∀ position < m.actions.length, ∀ other < m.actions.length,
    ∀ l ∈ m.definedAt position, l ∈ m.definedAt other → position = other
  reads : ∀ position < m.actions.length, ∀ a ∈ m.actions[position]?, ∀ l ∈ a.uses,
    l ∈ (notes position).known
  joins : ∀ position < m.actions.length, ∀ a ∈ m.actions[position]?, ∀ way ∈ (notes position).ways,
    ∀ arg ∈ picked way.1 a.phiArgs, arg.value ∈ way.2

instance : Decidable (m.Noted notes) := decidable_of_iff _ (m.noted_iff notes).symm

variable {m notes}

theorem Noted.holds (noted : m.Noted notes) {position : Nat} {assigned entered : List LocalId}
    {origin : Label × Bool} (trail : m.Trail position assigned origin entered) :
    (notes position).known ⊆ assigned ∧
      ∃ way ∈ (notes position).ways, way.1 = origin ∧ way.2 ⊆ entered := by
  have along : ∀ {position next : Nat} {exceptional : Bool} {defined assigned entered : List LocalId}
      {origin : Label × Bool}, m.CarriesNote notes position next exceptional defined →
      (notes position).known ⊆ assigned →
      (∃ way ∈ (notes position).ways, way.1 = origin ∧ way.2 ⊆ entered) →
      (notes next).known ⊆ defined ++ assigned ∧ ∃ way ∈ (notes next).ways,
        way.1 = (if m.enters next then (m.blockAt position, exceptional) else origin) ∧
          way.2 ⊆ if m.enters next then defined ++ assigned else entered := by
    rintro position next exceptional defined assigned entered origin ⟨known, ways⟩ sub
      ⟨way, listed, rfl, carried⟩
    have wider : ∀ {ids : List LocalId}, (∀ l ∈ ids, l ∈ defined ++ (notes position).known) →
        ids ⊆ defined ++ assigned := by grind
    obtain ⟨after, listedAfter, same, all⟩ := ways way listed
    refine ⟨wider known, after, listedAfter, same, ?_⟩
    split
    next enters =>
      simp only [if_pos enters] at all
      exact wider all
    next stays =>
      simp only [if_neg stays] at all
      exact fun l member => carried (all l member)
  induction trail with
  | start =>
    obtain ⟨none, entry⟩ := noted.entry
    refine ⟨by rw [none]; exact nil_subset _, _, entry, rfl, nil_subset _⟩
  | normal trail edge ih =>
    have inside := @lt_of_mem_edgesOf m false _ _ edge
    exact along ((noted.edges _ inside).1 _ edge) ih.1 ih.2
  | thrown trail edge ih =>
    have inside := @lt_of_mem_edgesOf m true _ _ edge
    exact along ((noted.edges _ inside).2 _ edge) ih.1 ih.2

theorem Noted.singleAssignment (noted : m.Noted notes) : m.SingleAssignment where
  once := by
    intro position other a b l here there defines definesOther
    refine noted.once position (lt_of_get here) other (lt_of_get there) l ?_ ?_
    · rw [definedAt_eq here, defines]
      exact mem_singleton.mpr rfl
    · rw [definedAt_eq there, definesOther]
      exact mem_singleton.mpr rfl
  reads := by
    intro position a l found read
    rw [assigns_iff]
    intro assigned origin entered trail
    exact (noted.holds trail).1 (noted.reads position (lt_of_get found) a found l read)
  joins := by
    intro position target args arg assigned entered origin found trail picks
    obtain ⟨-, way, listed, rfl, carried⟩ := noted.holds trail
    exact carried (noted.joins position (lt_of_get found) _ found way listed arg picks)

end Method

end DexLift.Ir
