import DexLift.Emit.Method
import DexLift.Proofs.Ir.Assigned
import DexLift.Proofs.Resolve.Allocation
import Mathlib.Data.List.TakeWhile

/-!
# The receiver of a constructor

A frame says of the receiver that no constructor has run on it up to the first
call of one in the order of the statements, and gives it its class behind that
call. What decides is the order of the statements, not the paths of control. So
the frames tell the truth about every path when control crosses the first call in
one direction only: nothing jumps past it or is thrown past it, and nothing comes
back from behind it.
-/

namespace DexLift.Ir

open List Ir.Flow Method

variable {f : Flow} {id : LocalId} {position next : Nat} {completed : Bool} {m : Method}

/-- Whether a statement calls a constructor on the object in a local. -/
def Action.constructsOn (id : LocalId) (a : Action) : Bool :=
  (a.operands.flatMap Expr.nodes).any (Expr.constructs id)

namespace Flow

/-- A path from the entry to a position, and whether it has completed a call of a constructor on a
local. An exceptional edge leaves a statement before its call is completed. -/
inductive Construction (f : Flow) (id : LocalId) : Nat → Bool → Prop where
  | start : Construction f id 0 false
  | normal {position next : Nat} {completed : Bool} (path : Construction f id position completed)
      (edge : next ∈ f.succsOf position) :
      Construction f id next (completed || (f.action position).constructsOn id)
  | thrown {position next : Nat} {completed : Bool} (path : Construction f id position completed)
      (edge : next ∈ f.exSuccsOf position) : Construction f id next completed

/-- Control crosses a position in one direction only: it gets behind it through the statement there,
without an exception, and does not come back. -/
def CrossesOnce (f : Flow) (last : Nat) : Prop :=
  ∀ position < f.size, (∀ next ∈ f.succsOf position, (last < next ↔ last ≤ position)) ∧
    ∀ next ∈ f.exSuccsOf position, (last < next ↔ last < position)

section

variable (path : Construction f id position completed) (edge : next ∈ f.succsOf position)

include path edge

theorem Construction.pass (plain : (f.action position).constructsOn id = false) :
    Construction f id next completed := by
  have onward := path.normal edge
  rwa [plain, Bool.or_false] at onward

theorem Construction.construct (calls : (f.action position).constructsOn id = true) :
    Construction f id next true := by
  have onward := path.normal edge
  rwa [calls, Bool.or_true] at onward

end

instance (f : Flow) (last : Nat) : Decidable (f.CrossesOnce last) :=
  inferInstanceAs (Decidable (∀ position < f.size, _))

theorem assigns_of_first {l : LocalId} (first : (f.action 0).defines? = some l)
    (quiet : f.exSuccsOf 0 = []) (behind : position ≠ 0) : f.Assigns position l := by
  intro assigned path
  induction path with
  | start => exact absurd rfl behind
  | @normal position next assigned path edge ih =>
    by_cases entry : position = 0
    · rw [entry, first]
      exact mem_cons_self
    · exact mem_append_right _ (ih entry)
  | @thrown position next assigned path edge ih =>
    refine ih ?_
    rintro rfl
    rw [quiet] at edge
    exact not_mem_nil edge

theorem Construction.completed_iff {last : Nat} (once : (ofMethod m).CrossesOnce last)
    (calls : ∀ next ∈ (ofMethod m).succsOf last, ((ofMethod m).action last).constructsOn id = true)
    (first : ∀ position < last, ((ofMethod m).action position).constructsOn id = false)
    (path : (ofMethod m).Construction id position completed) :
    completed = true ↔ last < position := by
  induction path with
  | start => simp
  | @normal position next completed path edge ih =>
    have inside := lt_of_edge (mem_append_left _ edge)
    rw [Bool.or_eq_true, ih, (once _ inside).1 next edge]
    rcases Nat.lt_trichotomy position last with before | here | behind
    · rw [first position before]
      simp only [Bool.false_eq_true, or_false]
      omega
    · subst here
      simp only [calls next edge, or_true, Nat.le_refl]
    · simp only [behind, true_or, le_of_lt behind]
  | @thrown position next completed path edge ih =>
    have inside := lt_of_edge (mem_append_right _ edge)
    rw [ih, (once _ inside).2 next edge]

end Flow

/-! ## The first call -/

namespace Method

/-- The body begins by naming the receiver and names no other. -/
structure Receives (m : Method) (id : LocalId) : Prop where
  first : m.actions.head?.bind Action.receiver? = some id
  only : ∀ a ∈ m.actions, a.receiver? = none ∨ a.receiver? = some id

/-- The position of the first call of a constructor on a local; behind the body when there is
none. -/
def firstCall (m : Method) (id : LocalId) : Nat := m.actions.findIdx (Action.constructsOn id)

end Method

theorem findConstruction_eq {actions : List Action} (position : Nat)
    (only : ∀ a ∈ actions, a.receiver? = none ∨ a.receiver? = some id) :
    findConstruction (some id) position actions =
      some (id, position + actions.findIdx (Action.constructsOn id)) := by
  induction actions generalizing position with
  | nil => simp [findConstruction]
  | cons a actions ih =>
    have same : (a.receiver? <|> some id) = some id := by grind
    have rest := ih (position + 1) fun b member =>
      only b (.tail _ member)
    rw [findConstruction, same, findIdx_cons]
    dsimp only
    change (if a.constructsOn id = true then _ else _) = _
    cases calls : a.constructsOn id with
    | true => simp
    | false =>
      simp only [Bool.false_eq_true, if_false, cond_false, rest]
      rw [Nat.add_assoc, Nat.add_comm 1]

namespace FrameSource

variable {m : Method} {f : Flow} {id : LocalId}

theorem uninitialized_ofMethod (constructor : m.startsUninitialized = true)
    (receives : m.Receives id) : (ofMethod m f).uninitialized = some (id, m.firstCall id) := by
  have found := findConstruction_eq 0 receives.only
  rw [Nat.zero_add] at found
  unfold ofMethod firstCall
  rw [if_pos constructor, ← found]
  obtain ⟨first, -⟩ := receives
  cases listed : m.actions with
  | nil =>
    rw [listed] at first
    cases first
  | cons a rest =>
    rw [listed] at first
    change a.receiver? = some id at first
    rw [findConstruction, findConstruction, first]
    rfl

/-! ## The first slot of a frame -/

theorem getElem?_foldl_slots (slot : LocalId → Option Nat) {type : LocalId → Jvm.VType}
    (own : slot id = some 0) {ids : List LocalId}
    (alone : ∀ other ∈ ids, other ≠ id → slot other ≠ some 0) {table : Array Jvm.VType}
    (room : 0 < table.size) (here : id ∈ ids ∨ table[0]? = some (type id)) :
    (ids.foldl (fun (table : Array Jvm.VType) id =>
      match slot id with
      | some place => table.setIfInBounds place (type id)
      | none => table) table)[0]? = some (type id) := by
  induction ids generalizing table with
  | nil => simpa using here
  | cons first ids ih =>
    have others : ∀ other ∈ ids, other ≠ id → slot other ≠ some 0 := fun other member =>
      alone other (.tail _ member)
    rw [foldl_cons]
    by_cases same : first = id
    · subst same
      rw [own]
      exact ih others (by simpa using room) (.inr (by simp [room]))
    · have later : id ∈ ids ∨ table[0]? = some (type id) :=
        here.imp_left fun member => (mem_cons.mp member).resolve_left (Ne.symm same)
      cases place : slot first with
      | none => exact ih others room later
      | some place_ =>
        have other : place_ ≠ 0 := by
          rintro rfl
          exact alone first mem_cons_self same place
        refine ih others (by simpa using room) (later.imp_right fun known => ?_)
        rwa [Array.getElem?_setIfInBounds_ne other]

end FrameSource

theorem head?_ofSlots {table : List Jvm.VType} {t : Jvm.VType} (first : table.head? = some t)
    (known : t ≠ .top) : (Jvm.VType.ofSlots table).head? = some t := by
  have kept : (Jvm.VType.perValue table).head? = some t := by
    rcases table with _ | ⟨head, _ | ⟨next, rest⟩⟩
    · cases first
    · exact first
    · unfold Jvm.VType.perValue
      split <;> exact first
  unfold Jvm.VType.ofSlots Jvm.VType.trimTops
  generalize Jvm.VType.perValue table = types at kept
  have trimmed : (types.reverse.dropWhile (· == Jvm.VType.top)).reverse <+: types :=
    reverse_suffix.mp (by simpa using dropWhile_suffix _)
  have some_ : (types.reverse.dropWhile (· == Jvm.VType.top)).reverse ≠ [] := by
    intro none
    rw [reverse_eq_nil_iff, dropWhile_eq_nil_iff] at none
    have all := none t (mem_reverse.mpr (mem_of_mem_head? kept))
    exact known (eq_of_beq all)
  obtain ⟨rest, same⟩ := trimmed
  rwa [← same, head?_append_of_ne_nil _ some_] at kept

theorem Method.slot_lt_slotCount {slot : Nat} (inside : id < m.locals.size)
    (placed : (m.local_ id).slot = some slot) : slot < m.slotCount := by
  let widen (count : Nat) (l : Local) : Nat :=
    match l.slot with
    | some slot => max count (slot + l.type.kind.slots)
    | none => count
  have grows : ∀ (count : Nat) (l : Local), count ≤ widen count l := by grind
  have keeps : ∀ (locals : List Local) (count : Nat), count ≤ locals.foldl widen count := by
    intro locals
    induction locals with
    | nil => exact fun _ => le_rfl
    | cons l locals ih =>
      exact fun count => le_trans (grows count l) (ih _)
  have holds : ∀ (locals : List Local) (count : Nat) (l : Local), l ∈ locals →
      l.slot = some slot → slot < locals.foldl widen count := by
    intro locals
    induction locals with
    | nil => exact fun _ _ none => absurd none not_mem_nil
    | cons first locals ih =>
      intro count l member placed
      rcases mem_cons.mp member with rfl | later
      · refine lt_of_lt_of_le ?_ (keeps locals _)
        simp only [widen, placed]
        have wide : 0 < l.type.kind.slots := by
          unfold Kind.slots
          split <;> decide
        omega
      · exact ih _ l later placed
  have member : m.local_ id ∈ m.locals.toList := by
    unfold local_
    rw [Array.getD_eq_getD_getElem?, Array.getElem?_eq_getElem inside]
    exact Array.getElem_mem_toList inside
  unfold slotCount
  rw [← Array.foldl_toList]
  exact holds m.locals.toList 0 _ member placed

theorem Ty.verified_refTo {desc : Text} (named : desc.isEmpty = false) :
    (Ty.refTo desc).verified = .object (Descriptor.className desc) := by
  simp [Ty.verified, Ty.refTo, Kind.ref, Kind.int, Kind.float, Kind.long, Kind.double, named]

namespace Method

variable {m : Method} {id : LocalId}

theorem constructsOn_of_lt_firstCall (before : position < m.firstCall id) :
    ((ofMethod m).action position).constructsOn id = false := by
  have inside : position < m.actions.length :=
    lt_of_lt_of_le before (findIdx_le_length ..)
  rw [action_ofMethod, getElem?_eq_getElem inside]
  exact not_of_lt_findIdx before

theorem constructsOn_firstCall (edge : next ∈ (ofMethod m).succsOf (m.firstCall id)) :
    ((ofMethod m).action (m.firstCall id)).constructsOn id = true := by
  rw [succsOf_ofMethod] at edge
  by_cases inside : m.firstCall id < m.actions.length
  · rw [action_ofMethod, getElem?_eq_getElem inside]
    exact findIdx_getElem
  · rw [getElem?_eq_none (Nat.le_of_not_lt inside)] at edge
    cases edge

end Method

namespace FrameSource

variable {m : Method} {f : Flow} {id : LocalId}

theorem typeOf_receiver (constructor : m.startsUninitialized = true) (receives : m.Receives id)
    (position : Nat) :
    (ofMethod m f).typeOf position id =
      if position ≤ m.firstCall id then .uninitializedThis else (m.localType id).verified := by
  unfold typeOf
  rw [uninitialized_ofMethod constructor receives]
  simp only [true_and]
  rfl

theorem head?_frameAt (known : id ∈ (ofMethod m f).known position)
    (placed : (m.local_ id).slot = some 0)
    (alone : ∀ other ∈ (ofMethod m f).known position, other ≠ id →
      (m.local_ other).slot ≠ some 0)
    (typed : (ofMethod m f).typeOf position id ≠ .top) (caught : Option Text) :
    ((ofMethod m f).frameAt position caught).locals.head? =
      some ((ofMethod m f).typeOf position id) := by
  have inside : id < m.locals.size := mem_range.mp (mem_filter.mp known).1
  have room : 0 < (Array.replicate (ofMethod m f).slots Jvm.VType.top).size := by
    rw [Array.size_replicate]
    exact slot_lt_slotCount inside placed
  refine head?_ofSlots ?_ typed
  rw [head?_eq_getElem?, Array.getElem?_toList]
  exact getElem?_foldl_slots (fun id => (m.local_ id).slot) placed alone room (.inl known)

theorem mem_known :
    id ∈ (ofMethod m f).known position ↔ id < m.locals.size ∧
      Holds (Liveness.ofFlow f m.locals.size).before position id ∧
      Holds (definitelyAssigned f m.locals.size) position id := by
  rw [known, LocalSet.toList, mem_filter, mem_range, LocalSet.mem_inter, Bool.and_eq_true]
  rfl

end FrameSource

/-- Where control crosses the first call of a constructor once, every frame that knows the receiver
says what is true of all paths: the receiver has no class where no path has completed a call, and is
an object of the class where every path has. -/
theorem receiver_of_crossesOnce {m : Method} {id : LocalId}
    (constructor : m.startsUninitialized = true) (named : m.owner.isEmpty = false)
    (receives : m.Receives id) (typed : m.localType id = .refTo m.owner)
    (once : (Flow.ofMethod m).CrossesOnce (m.firstCall id)) {position : Nat}
    (known : id ∈ (FrameSource.ofMethod m (Flow.ofMethod m)).known position)
    (placed : (m.local_ id).slot = some 0)
    (alone : ∀ other ∈ (FrameSource.ofMethod m (Flow.ofMethod m)).known position, other ≠ id →
      (m.local_ other).slot ≠ some 0)
    (reached : ∃ completed, (Flow.ofMethod m).Construction id position completed)
    (caught : Option Text) :
    ((∀ completed, (Flow.ofMethod m).Construction id position completed → completed = false) →
      ((FrameSource.ofMethod m (Flow.ofMethod m)).frameAt position caught).locals.head? =
        some .uninitializedThis) ∧
    ((∀ completed, (Flow.ofMethod m).Construction id position completed → completed = true) →
      ((FrameSource.ofMethod m (Flow.ofMethod m)).frameAt position caught).locals.head? =
        some (.object (Descriptor.className m.owner))) := by
  obtain ⟨completed, path⟩ := reached
  have crossed := path.completed_iff once (fun _ => Method.constructsOn_firstCall)
    fun _ => Method.constructsOn_of_lt_firstCall
  have type := FrameSource.typeOf_receiver (f := Flow.ofMethod m) constructor receives position
  rw [typed, Ty.verified_refTo named] at type
  have head := FrameSource.head?_frameAt known placed alone (by rw [type]; split <;> nofun) caught
  rw [head, type]
  constructor
  · intro none
    rw [none completed path] at crossed
    rw [if_pos (Nat.le_of_not_lt fun behind => nomatch crossed.mpr behind)]
  · intro all
    rw [if_neg (Nat.not_le.mpr (crossed.mp (all completed path)))]

namespace Method

/-- A constructor that calls the one of its superclass and then loops. -/
def looping : Method :=
  { owner := "La;", name := "<init>", desc := "()V", access := ⟨1⟩, params := [], result := "V"
    locals := #[{ type := .refTo "La;", slot := some 0 }]
    stmts := #[⟨.identity 0 (.leaf .this), none⟩, ⟨constructed, none⟩, ⟨.label (.number 0), none⟩,
      ⟨.void (.node (.invoke .virtual ⟨"La;", "h", ⟨[], "V"⟩⟩) [.read 0]), none⟩,
      ⟨.goto (.number 0), none⟩]
    order := #[0, 1, 2, 3, 4]
    placed := #[some 2] }
where
  /-- Calls the constructor of the superclass. -/
  constructed : Action :=
    .void (.node (.invoke .direct ⟨"Ljava/lang/Object;", "<init>", ⟨[], "V"⟩⟩) [.read 0])

end Method

theorem looping_known : 0 ∈ (FrameSource.ofMethod .looping (ofMethod .looping)).known 2 := by
  have solves : Liveness.Solves (ofMethod .looping) (.ofFlow (ofMethod .looping) 1) :=
    KnowsLocals.solves (by decide) (by decide)
  have read := solves.read 3 (by decide) 0 (by decide)
  have onward := solves.next 2 (by decide) 3 (by decide) 0 read
  refine FrameSource.mem_known.mpr ⟨by decide, ?_, ?_⟩
  · exact solves.kept 2 (by decide) 0 onward (by decide)
  · exact holds_definitelyAssigned (by decide) (by decide)
      (assigns_of_first (by decide) (by decide) (by decide))

/-- The receiver has its class where the loop begins. -/
theorem receiver_of_crossesOnce_looping :
    (∀ completed, (Flow.ofMethod .looping).Construction 0 2 completed → completed = true) ∧
      ((FrameSource.ofMethod .looping (Flow.ofMethod .looping)).frameAt 2 none).locals.head? =
        some (.object "a") := by
  have once : (Flow.ofMethod .looping).CrossesOnce (Method.looping.firstCall 0) := by
    with_unfolding_all decide
  have named : (Flow.ofMethod .looping).Construction 0 1 false :=
    Flow.Construction.start.pass (by decide) (by decide)
  have called : (Flow.ofMethod .looping).Construction 0 2 true :=
    named.construct (by decide) (by decide)
  have all : ∀ completed, (Flow.ofMethod .looping).Construction 0 2 completed →
      completed = true := by
    intro completed path
    have crossed := path.completed_iff once (fun _ => Method.constructsOn_firstCall)
      fun _ => Method.constructsOn_of_lt_firstCall
    exact crossed.mpr (by decide)
  have alone : ∀ other ∈ (FrameSource.ofMethod .looping (Flow.ofMethod .looping)).known 2,
      other ≠ 0 → (Method.looping.local_ other).slot ≠ some 0 := by
    intro other known different
    exact absurd (Nat.lt_one_iff.mp (FrameSource.mem_known.mp known).1) different
  refine ⟨all, ?_⟩
  exact (receiver_of_crossesOnce (by decide) (by decide)
    ⟨by decide, by decide⟩ (by decide) once looping_known
    (by decide) alone ⟨true, called⟩ none).2 all

namespace Method

/-- A constructor with an arm that is placed behind the call it runs in front of. -/
def outOfLine : Method :=
  { owner := "La;", name := "<init>", desc := "(I)V", access := ⟨1⟩, params := ["I"], result := "V"
    locals := #[{ type := .refTo "La;", slot := some 0 }, { type := .int, slot := some 1 }]
    stmts := #[⟨.identity 0 (.leaf .this), none⟩, ⟨.identity 1 (.leaf (.param 0)), none⟩,
      ⟨.branch .eq (.read 1) none (.number 1), none⟩, ⟨.label (.number 0), none⟩,
      ⟨looping.constructed, none⟩, ⟨.return none, none⟩,
      ⟨.label (.number 1), none⟩, ⟨.goto (.number 0), none⟩]
    order := #[0, 1, 2, 3, 4, 5, 6, 7]
    placed := #[some 3, some 6] }

end Method

/-- The call goes on to the return alone, and from there control goes nowhere. The branch goes to
the arm, and the arm back to the call. -/
theorem outOfLine_edges : (∀ position < (ofMethod .outOfLine).size,
    (∀ next ∈ (ofMethod .outOfLine).succsOf position, position ≠ 5 ∧
      (((ofMethod .outOfLine).action position).constructsOn 0 = true → next = 5)) ∧
    (ofMethod .outOfLine).exSuccsOf position = []) ∧
    6 ∈ (ofMethod .outOfLine).succsOf 2 ∧ 3 ∈ (ofMethod .outOfLine).succsOf 7 := by
  with_unfolding_all decide

theorem outOfLine_completed (path : (ofMethod .outOfLine).Construction 0 position completed) :
    completed = true → position = 5 := by
  induction path with
  | start => nofun
  | normal path edge ih =>
    have inside := lt_of_edge (mem_append_left _ edge)
    obtain ⟨elsewhere, called⟩ := (outOfLine_edges.1 _ inside).1 _ edge
    intro either
    rcases Bool.or_eq_true_iff.mp either with before | here
    · exact absurd (ih before) elsewhere
    · exact called here
  | thrown path edge =>
    rw [(outOfLine_edges.1 _ (lt_of_edge (mem_append_right _ edge))).2] at edge
    exact absurd edge not_mem_nil

theorem outOfLine_reached : (ofMethod .outOfLine).Construction 0 6 false := by
  have first : (ofMethod .outOfLine).Construction 0 1 false :=
    Construction.start.pass (by decide) (by decide)
  have second : (ofMethod .outOfLine).Construction 0 2 false :=
    first.pass (by decide) (by decide)
  exact second.pass outOfLine_edges.2.1 (by decide)

theorem outOfLine_known : 0 ∈ (FrameSource.ofMethod .outOfLine (ofMethod .outOfLine)).known 6 := by
  have solves : Liveness.Solves (ofMethod .outOfLine) (.ofFlow (ofMethod .outOfLine) 2) :=
    KnowsLocals.solves (by decide) (by decide)
  have called := solves.read 4 (by decide) 0 (by decide)
  have joined := solves.kept 3 (by decide) 0
    (solves.next 3 (by decide) 4 (by decide) 0 called) (by decide)
  have jumped := solves.kept 7 (by decide) 0
    (solves.next 7 (by decide) 3 outOfLine_edges.2.2 0 joined) (by decide)
  have armed := solves.next 6 (by decide) 7 (by decide) 0 jumped
  refine FrameSource.mem_known.mpr ⟨by decide, ?_, ?_⟩
  · exact solves.kept 6 (by decide) 0 armed (by decide)
  · exact holds_definitelyAssigned (by decide) (by decide)
      (assigns_of_first (by decide) (by decide) (by decide))

/-- No path to the arm has completed a call, and yet the frame there gives the receiver its class.
-/
theorem outOfLine_receiver :
    Method.outOfLine.startsUninitialized = true ∧ Method.outOfLine.Receives 0 ∧
      Method.outOfLine.localType 0 = .refTo "La;" ∧
      (Flow.ofMethod .outOfLine).Construction 0 6 false ∧
      (∀ completed, (Flow.ofMethod .outOfLine).Construction 0 6 completed → completed = false) ∧
      0 ∈ (FrameSource.ofMethod .outOfLine (Flow.ofMethod .outOfLine)).known 6 ∧
      ((FrameSource.ofMethod .outOfLine (Flow.ofMethod .outOfLine)).frameAt 6 none).locals.head? =
        some (.object "a") := by
  have constructor : Method.outOfLine.startsUninitialized = true := by decide
  have receives : Method.outOfLine.Receives 0 := ⟨by decide, by decide⟩
  have type : (FrameSource.ofMethod .outOfLine (Flow.ofMethod .outOfLine)).typeOf 6 0 =
      .object "a" := by
    rw [FrameSource.typeOf_receiver constructor receives]
    decide
  have alone : ∀ other ∈ (FrameSource.ofMethod .outOfLine (Flow.ofMethod .outOfLine)).known 6,
      other ≠ 0 → (Method.outOfLine.local_ other).slot ≠ some 0 := by
    intro other known different
    have second : other = 1 := le_antisymm
      (Nat.le_of_lt_succ (FrameSource.mem_known.mp known).1) (Nat.pos_of_ne_zero different)
    rw [second]
    decide
  refine ⟨constructor, receives, by decide, outOfLine_reached, ?_, outOfLine_known, ?_⟩
  · intro completed path
    cases completed with
    | false => rfl
    | true => exact absurd (outOfLine_completed path rfl) (by decide)
  · rw [FrameSource.head?_frameAt outOfLine_known (by decide) alone (by rw [type]; nofun), type]

end DexLift.Ir
