import DexLift.Proofs.Simplify.Copies
import DexLift.Proofs.Simplify.Reachable

/-!
# Taking out what nobody reads

A local is needed when a statement that has to stay reads it, or the definition of
a needed local does. The definitions that may go are those of locals that are not
needed, also when they read each other in a circle. What is marked by following
definitions from the statements that stay is what is needed, since every local
enters the list of work once.
-/

namespace DexLift.Ir.Method

open List
open DexLift.Ir.Flow (marked_foldl size_foldl_mark count_foldl)

variable {m : Method} {needed : Array Bool} {work : List LocalId}

/-! ## What is needed -/

inductive Needed (m : Method) : LocalId → Prop where
  | read (a : Action) (x : LocalId) (listed : a ∈ m.actions) (stays : a.isDeletable = false)
      (used : x ∈ a.uses) : Needed m x
  | through (a : Action) (x y : LocalId) (needed : Needed m y) (listed : a ∈ m.actions)
      (defines : a.defines? = some y) (used : x ∈ a.uses ++ joined a) : Needed m x

/-- What the definition of a local reads that may go. -/
def needs (m : Method) (x : LocalId) : List LocalId :=
  match m.defs.getD x none with
  | none => []
  | some id =>
    if (m.action id).isDeletable then (m.action id).uses ++ joined (m.action id) else []

theorem InSsa.mem_needs (inSsa : m.InSsa) {x y : LocalId} : y ∈ m.needs x ↔
    ∃ a ∈ m.actions, a.defines? = some x ∧ a.isDeletable = true ∧ y ∈ a.uses ++ joined a := by
  unfold needs
  constructor
  · intro listed
    cases noted : m.defs.getD x none with
    | none =>
      rw [noted] at listed
      cases listed
    | some id =>
      rw [noted] at listed
      dsimp only at listed
      obtain ⟨linked, defines⟩ := m.mem_of_getD_defs noted
      split at listed
      next deletable => exact ⟨_, mem_map_of_mem linked, defines, deletable, listed⟩
      · cases listed
  · rintro ⟨a, listed, defines, deletable, used⟩
    obtain ⟨id, linked, rfl⟩ := mem_map.mp listed
    obtain ⟨other, noted⟩ := m.exists_getD_defs (inSsa.known _ listed x defines) linked defines
    obtain ⟨linkedOther, definesOther⟩ := m.mem_of_getD_defs noted
    obtain rfl := inSsa.eq_of_defines linked linkedOther defines definesOther
    rw [noted]
    dsimp only
    rwa [if_pos deletable]

/-! ## Following definitions -/

def markAll (found : List LocalId) (needed : Array Bool) : Array Bool :=
  found.foldl (fun needed x => needed.setIfInBounds x true) needed

/-- The locals that the definition of a local reads and that are not marked yet. -/
def newNeeds (m : Method) (needed : Array Bool) (x : LocalId) : List LocalId :=
  ((m.needs x).filter fun y => !needed.getD y true).eraseDups

theorem mem_newNeeds {x y : LocalId} :
    y ∈ m.newNeeds needed x ↔ y ∈ m.needs x ∧ needed[y]? = some false := by
  rw [newNeeds, mem_eraseDups, mem_filter, Array.getD_eq_getD_getElem?]
  refine and_congr_right fun _ => ?_
  cases needed[y]? with
  | none => simp
  | some marked => cases marked <;> simp

/-- What holds while definitions are followed. -/
structure Spreads (m : Method) (work : List LocalId) (needed : Array Bool) : Prop where
  size : needed.size = m.locals.size
  marked : ∀ x ∈ work, Flow.Marked needed x
  sound : ∀ x, Flow.Marked needed x → m.Needed x
  roots : ∀ a ∈ m.actions, a.isDeletable = false → ∀ x ∈ a.uses, x < m.locals.size →
    Flow.Marked needed x
  spread : ∀ x, Flow.Marked needed x → x ∈ work ∨
    ∀ y ∈ m.needs x, y < m.locals.size → Flow.Marked needed y

theorem Spreads.step (inSsa : m.InSsa) {x : LocalId} (spreads : m.Spreads (x :: work) needed) :
    m.Spreads (m.newNeeds needed x ++ work) (markAll (m.newNeeds needed x) needed) := by
  have marks : ∀ y, Flow.Marked (markAll (m.newNeeds needed x) needed) y ↔
      Flow.Marked needed y ∨ (y ∈ m.newNeeds needed x ∧ y < needed.size) := fun y => marked_foldl
  have inside : ∀ {y}, y ∈ m.newNeeds needed x → y < needed.size := fun listed =>
    (Array.getElem?_eq_some_iff.mp (mem_newNeeds.mp listed).2).1
  refine ⟨size_foldl_mark.trans spreads.size, fun y listed => ?_, fun y marked => ?_,
    fun a listed stays y used bound =>
      (marks y).mpr (.inl (spreads.roots a listed stays y used bound)), fun y marked => ?_⟩
  · rw [marks]
    rcases mem_append.mp listed with new | before
    · exact .inr ⟨new, inside new⟩
    · exact .inl (spreads.marked y (.tail _ before))
  · rcases (marks y).mp marked with before | ⟨new, -⟩
    · exact spreads.sound y before
    · obtain ⟨a, listed, defines, -, used⟩ := inSsa.mem_needs.mp (mem_newNeeds.mp new).1
      exact .through a y x (spreads.sound x (spreads.marked x mem_cons_self)) listed defines
        used
  · by_cases new : y ∈ m.newNeeds needed x
    · exact .inl (mem_append_left _ new)
    have before := ((marks y).mp marked).resolve_right fun both => new both.1
    rcases spreads.spread y before with waiting | done
    · rcases mem_cons.mp waiting with rfl | later
      · right
        intro z read bound
        rw [marks]
        rw [← spreads.size] at bound
        by_cases old : Flow.Marked needed z
        · exact .inl old
        · refine .inr ⟨mem_newNeeds.mpr ⟨read, ?_⟩, bound⟩
          rw [Array.getElem?_eq_getElem bound]
          simpa [Flow.Marked, Array.getD_eq_getD_getElem?, bound] using old
      · exact .inl (mem_append_right _ later)
    · exact .inr fun z read bound => (marks z).mpr (.inl (done z read bound))

theorem Spreads.all (inSsa : m.InSsa) {fuel : Nat} (spreads : m.Spreads work needed)
    (enough : needed.toList.count false + work.length ≤ fuel) :
    m.Spreads [] (m.spreadNeeds m.defs fuel work needed) := by
  induction fuel generalizing work needed with
  | zero =>
    obtain rfl : work = [] := length_eq_zero_iff.mp (by omega)
    exact spreads
  | succ fuel ih =>
    cases work with
    | nil => exact spreads
    | cons x work =>
      have unfolded : m.spreadNeeds m.defs (fuel + 1) (x :: work) needed =
          m.spreadNeeds m.defs fuel (m.newNeeds needed x ++ work)
            (markAll (m.newNeeds needed x) needed) := rfl
      rw [unfolded]
      refine ih (spreads.step inSsa) ?_
      have unmarked : ∀ y ∈ m.newNeeds needed x, needed[y]? = some false :=
        fun y listed => (mem_newNeeds.mp listed).2
      have less : (markAll (m.newNeeds needed x) needed).toList.count false +
          (m.newNeeds needed x).length = needed.toList.count false :=
        count_foldl (nodup_eraseDups _) unmarked
      rw [length_append]
      rw [length_cons] at enough
      omega

theorem length_marked (needed : Array Bool) : needed.toList.count false +
    ((range needed.size).filter fun x => needed.getD x false).length = needed.size := by
  have listed : needed.toList = (range needed.size).map fun x => needed.getD x false := by
    refine ext_getElem (by simp) fun i inside _ => ?_
    have bound : i < needed.size := by simpa using inside
    simp [Array.getD_eq_getD_getElem?, bound]
  have split := length_eq_length_filter_add (l := range needed.size) fun x => needed.getD x false
  rw [length_range] at split
  conv_lhs => rw [listed]
  rw [count, countP_map, countP_eq_length_filter]
  have same : ((fun b => b == false) ∘ fun x => needed.getD x false) =
      fun x => !needed.getD x false := by
    funext x
    simp
  rw [same]
  omega

def marks (m : Method) : Array Bool :=
  let roots := (m.actions.filter fun action => !action.isDeletable).flatMap Action.uses
  let marked := markAll roots (Array.replicate m.locals.size false)
  let start := (range m.locals.size).filter fun id => marked.getD id false
  m.spreadNeeds m.defs (m.locals.size + 1) start marked

theorem spreads_start (m : Method) :
    let roots := (m.actions.filter fun action => !action.isDeletable).flatMap Action.uses
    let marked := markAll roots (Array.replicate m.locals.size false)
    m.Spreads ((range m.locals.size).filter fun id => marked.getD id false) marked := by
  intro roots marked
  have marks : ∀ x, Flow.Marked marked x ↔ x ∈ roots ∧ x < m.locals.size := by
    intro x
    refine marked_foldl.trans ?_
    rw [Array.size_replicate]
    refine or_iff_right fun contrary => ?_
    rw [Flow.Marked, getD_replicate] at contrary
    cases contrary
  have root : ∀ x, x ∈ roots ↔ ∃ a ∈ m.actions, a.isDeletable = false ∧ x ∈ a.uses := by
    intro x
    simp [roots, and_assoc]
  refine ⟨size_foldl_mark.trans Array.size_replicate, fun x listed => (mem_filter.mp listed).2,
    fun x marked => ?_, fun a listed stays x used inside => ?_, fun x marked => .inl ?_⟩
  · obtain ⟨a, listed, stays, used⟩ := (root x).mp ((marks x).mp marked).1
    exact .read a x listed stays used
  · exact (marks x).mpr ⟨(root x).mpr ⟨a, listed, stays, used⟩, inside⟩
  · exact mem_filter.mpr ⟨mem_range.mpr ((marks x).mp marked).2, marked⟩

theorem InSsa.marked_iff (inSsa : m.InSsa) {x : LocalId} :
    Flow.Marked m.marks x ↔ m.Needed x ∧ x < m.locals.size := by
  have start := m.spreads_start
  have counted := length_marked (markAll
    ((m.actions.filter fun action => !action.isDeletable).flatMap Action.uses)
    (Array.replicate m.locals.size false))
  rw [start.size] at counted
  have spreads : m.Spreads [] m.marks :=
    start.all inSsa ((Nat.le_of_eq counted).trans (Nat.le_succ _))
  constructor
  · intro marked
    refine ⟨spreads.sound x marked, ?_⟩
    by_contra outside
    rw [← spreads.size, Nat.not_lt] at outside
    simp [Flow.Marked, Array.getD_eq_getD_getElem?, outside] at marked
  · rintro ⟨needed, inside⟩
    induction needed with
    | read a x listed stays used => exact spreads.roots a listed stays x used inside
    | through a x y _ listed defines used ih =>
      cases deletable : a.isDeletable with
      | true =>
        have marked := ih (inSsa.known a listed y defines)
        exact (spreads.spread y marked).resolve_left not_mem_nil x
          (inSsa.mem_needs.mpr ⟨a, listed, defines, deletable, used⟩) inside
      | false =>
        have none : joined a = [] := by
          cases a with
          | phi => cases deletable
          | _ => rfl
        rw [none, append_nil] at used
        exact spreads.roots a listed deletable x used inside

/-! ## Sweeping -/

/-- Whether a statement is taken out. -/
def swept (m : Method) (id : StmtId) : Bool :=
  (m.action id).isDeletable && (m.action id).defines?.any fun x => !m.marks.getD x false

theorem InSsa.swept_iff (inSsa : m.InSsa) {id : StmtId} (linked : id ∈ m.order.toList) :
    m.swept id = true ↔ (m.action id).isDeletable = true ∧
      ∃ x, (m.action id).defines? = some x ∧ ¬ m.Needed x := by
  rw [swept, Bool.and_eq_true, Option.any_eq_true]
  refine and_congr_right fun _ => exists_congr fun x => and_congr_right fun defines => ?_
  have inside := inSsa.known _ (mem_map_of_mem linked) x defines
  have marked := inSsa.marked_iff (x := x)
  rw [Bool.not_eq_true', ← Bool.not_eq_true, not_iff_not]
  exact marked.trans (and_iff_left inside)

theorem Proper.isQuiet_of_isDeletable (proper : m.Proper) {a : Action} (listed : a ∈ m.actions)
    (deletable : a.isDeletable = true) : a.isQuiet = true := by
  cases a with
  | phi => rfl
  | identity x value =>
    have quiet := proper.names x value listed
    simp [Action.isQuiet, quiet]
  | assign x value =>
    have removable : (!value.canThrow && !value.hasEffects) = true := deletable
    exact (Bool.and_eq_true_iff.mp removable).1
  | _ => cases deletable

/-- Taking out what nothing needs replaces the method; the definitions left that may go are those of
locals that are needed still. -/
theorem InSsa.sweep (inSsa : m.InSsa) : m.Replaces m.sweep ∧ m.sweep.actions.Sublist m.actions ∧
    ∀ a ∈ m.sweep.actions, a.isDeletable = true → ∀ x, a.defines? = some x → m.sweep.Needed x := by
  have quiet : ∀ id ∈ m.order.toList, m.swept id = true → (m.action id).isQuiet = true :=
    fun id linked goes => inSsa.proper.isQuiet_of_isDeletable (mem_map_of_mem linked)
      ((inSsa.swept_iff linked).mp goes).1
  have rewrites : m.Rewrites m.sweep (fun id => !m.swept id) .read id :=
    inSsa.rewrites_removeWhere quiet
  have survives : ∀ x, m.Needed x → m.Survives (fun id => !m.swept id) x := by
    intro x needed id linked goes defines
    obtain ⟨-, y, own, unneeded⟩ := (inSsa.swept_iff linked).mp (by simpa using goes)
    obtain rfl := Option.some.inj (own.symm.trans defines)
    exact unneeded needed
  -- What a statement that is left reads or picks is needed.
  have reads : ∀ id ∈ m.order.toList, (!m.swept id) = true →
      ∀ x ∈ (m.action id).uses ++ joined (m.action id), m.Needed x := by
    intro id linked kept x used
    have listed : m.action id ∈ m.actions := mem_map_of_mem linked
    cases deletable : (m.action id).isDeletable with
    | true =>
      have defined : ∃ y, (m.action id).defines? = some y := by
        cases action : m.action id with
        | phi | identity | assign => exact ⟨_, rfl⟩
        | _ =>
          rw [action] at deletable
          cases deletable
      obtain ⟨y, defines⟩ := defined
      refine .through _ x y ?_ listed defines used
      by_contra unneeded
      rw [(inSsa.swept_iff linked).mpr ⟨deletable, y, defines, unneeded⟩] at kept
      cases kept
    | false =>
      have none : joined (m.action id) = [] := by
        cases action : m.action id with
        | phi =>
          rw [action] at deletable
          cases deletable
        | _ => rfl
      rw [none, append_nil] at used
      exact .read _ x listed deletable used
  have actions : ∀ id ∈ m.sweep.order.toList, m.sweep.action id = m.action id := by
    intro id listed
    rw [rewrites.action id listed]
    exact (inSsa.proper.operands _ (rewrites.mem_actions listed).1).mapReads_self
  have same : m.sweep.actions = (m.order.toList.filter fun id => !m.swept id).map m.action := by
    rw [Method.actions, map_congr_left actions, rewrites.order]
  refine ⟨?_, ?_, ?_⟩
  · refine rewrites.replaces inSsa .refl fun position id assigned entered origin here kept trail =>
      ⟨fun x used => ?_, fun arg picks => ?_⟩
    · exact survives x (reads id (mem_of_getElem? here) kept x (mem_append_left _ used))
    · exact survives _ (reads id (mem_of_getElem? here) kept _
        (mem_append_right _ (mem_map_of_mem (picked_spec picks).1)))
  · rw [same]
    exact filter_sublist.map _
  · have left : ∀ a ∈ m.actions,
        (a.isDeletable = true → ∀ x, a.defines? = some x → m.Needed x) → a ∈ m.sweep.actions := by
      intro a listed needed
      obtain ⟨id, linked, rfl⟩ := mem_map.mp listed
      rw [same]
      refine mem_map_of_mem (mem_filter.mpr ⟨linked, ?_⟩)
      rw [Bool.not_eq_true', ← Bool.not_eq_true, inSsa.swept_iff linked]
      rintro ⟨deletable, x, defines, unneeded⟩
      exact unneeded (needed deletable x defines)
    have stays : ∀ x, m.Needed x → m.sweep.Needed x := by
      intro x needed
      induction needed with
      | read a x listed stays used =>
        refine .read a x (left a listed fun deletable => ?_) stays used
        rw [stays] at deletable
        cases deletable
      | through a x y needed listed defines used ih =>
        refine .through a x y ih (left a listed fun _ z own => ?_) defines used
        rwa [← Option.some.inj (defines.symm.trans own)]
    intro a listed deletable x defines
    obtain ⟨id, linked, rfl⟩ := mem_map.mp listed
    have kept := (rewrites.mem_actions linked).2
    rw [actions id linked] at deletable defines
    rw [rewrites.order] at linked
    by_contra unneeded
    have goes := (inSsa.swept_iff (mem_of_mem_filter linked)).mpr
      ⟨deletable, x, defines, fun needed => unneeded (stays x needed)⟩
    rw [goes] at kept
    cases kept

/-- Replacing copies and taking out what nobody reads replaces the method. No copy is left, no join
that reads one other local only, and no definition that may go of a local that is not needed. -/
theorem InSsa.removeCopies (inSsa : m.InSsa) : m.Replaces m.removeCopies ∧
    m.removeCopies.Uncopied ∧ ∀ a ∈ m.removeCopies.actions, a.isDeletable = true →
      ∀ x, a.defines? = some x → m.removeCopies.Needed x := by
  obtain ⟨first, copied⟩ := inSsa.propagateAll (Nat.lt_succ_self _)
  obtain ⟨second, fewer, swept⟩ := first.inSsa.sweep
  exact ⟨first.trans second, ⟨fun target source args listed =>
    copied.copies target source args (fewer.subset listed), fun target args listed =>
    copied.joins target args (fewer.subset listed)⟩, swept⟩

end DexLift.Ir.Method
