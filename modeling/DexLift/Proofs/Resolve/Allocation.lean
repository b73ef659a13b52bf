import DexLift.Proofs.Ir.Places
import DexLift.Proofs.Resolve.Slots
import Mathlib.Data.Prod.Basic

/-!
# Running a method in its slots

A frame holds, beside the cells of all slots, the value each local was last given
on the way. A definition writes the cells of its local, a copy writes the cells it
finds where its source is, and what arrives is in its slots from the beginning.
Main statement: wherever a local is read, its slots hold the value it was last
given, as long as no copy is torn. A copy is torn when its source is still needed
and the two locals share a slot without beginning at the same one; only values of
two slots can be.
-/

namespace DexLift.Ir

open List Ir.Flow

namespace Method

open SlotTable (span mem_span)

/-! ## The calling convention -/

variable {params : List Text} {m : Method}

/-- The local that names what arrives, and what it names. -/
def received? : Action → Option (LocalId × Head)
  | .identity target (.node .this _) => some (target, .this)
  | .identity target (.node (.param index) _) => some (target, .param index)
  | _ => none

def receivedIn (slots : List Nat) : Head → Nat
  | .param index => slots.getD index 0
  | _ => 0

/-- The locals that name what arrives. -/
def received (m : Method) : List (LocalId × Head) := m.actions.filterMap received?

/-- What arrives in a local is declared: the receiver in an instance method and a parameter that
takes as many slots as the local. -/
def declares (m : Method) (id : LocalId) : Head → Bool
  | .this => !m.isStatic && !(m.localType id).kind.isWide
  | .param index =>
    (m.params[index]?).map (fun desc => (Kind.ofDesc desc).isWide) ==
      some (m.localType id).kind.isWide
  | _ => false

/-- The statements in front of a position are the entry: nothing leads back into it, what arrives is
named there, each local and each thing that arrives once, and nothing else is defined there. -/
structure EntersBy (m : Method) (stop : Nat) : Prop where
  once : (m.received.map Prod.fst).Nodup ∧ (m.received.map Prod.snd).Nodup
  declared : ∀ arrival ∈ m.received, m.declares arrival.1 arrival.2 = true
  early : ∀ position < (Flow.ofMethod m).size,
    (received? ((Flow.ofMethod m).action position)).isSome → position < stop
  only : ∀ position < stop, ((Flow.ofMethod m).action position).defines?.isSome →
    (received? ((Flow.ofMethod m).action position)).isSome
  straight : ∀ position < (Flow.ofMethod m).size,
    ∀ next ∈ (Flow.ofMethod m).succsOf position ++ (Flow.ofMethod m).exSuccsOf position,
      next < stop → next = position + 1

theorem arrival?_eq (slots : List Nat) (a : Action) :
    arrival? slots a = (received? a).map fun (id, what) => (id, receivedIn slots what) := by
  unfold received?
  split
  · rfl
  · rfl
  next notThis notParam =>
    unfold arrival?
    split
    next target args => exact absurd rfl (notThis target args)
    next target index args => exact absurd rfl (notParam target index args)
    · rfl

theorem le_place {start slot i : Nat} (found : (paramSlots.place start params)[i]? = some slot) :
    start ≤ slot := by
  induction params generalizing start i with
  | nil => simp [paramSlots.place] at found
  | cons param params ih =>
    cases i with
    | zero =>
      have same : start = slot := by simpa [paramSlots.place] using found
      exact le_of_eq same
    | succ i =>
      have later := ih (by simpa [paramSlots.place] using found)
      exact le_trans (Nat.le_add_right _ _) later

theorem place_apart {start first second i j : Nat} {desc : Text} (order : i < j)
    (declared : params[i]? = some desc) (isFirst : (paramSlots.place start params)[i]? = some first)
    (isSecond : (paramSlots.place start params)[j]? = some second) :
    first + (Kind.ofDesc desc).slots ≤ second := by
  induction params generalizing start i j with
  | nil => simp at declared
  | cons param params ih =>
    obtain ⟨j, rfl⟩ := Nat.exists_eq_succ_of_ne_zero (Nat.ne_zero_of_lt order)
    have rest : (paramSlots.place (start + (Kind.ofDesc param).slots) params)[j]? = some second := by
      simpa [paramSlots.place] using isSecond
    cases i with
    | zero =>
      have begins : start = first := by simpa [paramSlots.place] using isFirst
      have same : param = desc := by simpa using declared
      rw [← begins, ← same]
      exact le_place rest
    | succ i =>
      exact ih (Nat.lt_of_succ_lt_succ order) (by simpa using declared)
        (by simpa [paramSlots.place] using isFirst) rest

theorem length_place (start : Nat) (params : List Text) :
    (paramSlots.place start params).length = params.length := by
  induction params generalizing start with
  | nil => rfl
  | cons param params ih => simp [paramSlots.place, ih]

theorem parameter_slot {id : LocalId} {index : Nat} (declared : m.declares id (.param index) = true) :
    ∃ desc, m.params[index]? = some desc ∧
      m.paramSlots[index]? = some (receivedIn m.paramSlots (.param index)) ∧
      (m.localType id).kind.slots = (Kind.ofDesc desc).slots := by
  obtain ⟨desc, found, wide⟩ := Option.map_eq_some_iff.mp (beq_iff_eq.mp declared)
  refine ⟨desc, found, ?_, ?_⟩
  · have inside : index < m.paramSlots.length := by
      rw [paramSlots, length_place]
      exact lt_of_get found
    simp [receivedIn, inside]
  · rw [Kind.slots, Kind.slots, wide]

theorem received_disjoint {first second : LocalId} {what other : Head}
    (isFirst : m.declares first what = true) (isSecond : m.declares second other = true)
    (different : what ≠ other) :
    Disjoint (span (receivedIn m.paramSlots what) (m.localType first).kind)
      (span (receivedIn m.paramSlots other) (m.localType second).kind) := by
  have receiver : ∀ {a b : LocalId} {index : Nat}, m.declares a .this = true →
      m.declares b (.param index) = true →
      Disjoint (span (receivedIn m.paramSlots .this) (m.localType a).kind)
        (span (receivedIn m.paramSlots (.param index)) (m.localType b).kind) := by
    intro a b index isThis isParam k inThis inParam
    have ⟨instance_, narrow⟩ : m.isStatic = false ∧ (m.localType a).kind.isWide = false := by
      simpa [declares] using isThis
    obtain ⟨desc, -, slot, -⟩ := parameter_slot isParam
    have behind : 1 ≤ receivedIn m.paramSlots (.param index) := by
      have placed : (paramSlots.place 1 m.params)[index]? =
          some (receivedIn m.paramSlots (.param index)) := by
        simpa [paramSlots, instance_] using slot
      exact le_place placed
    have one : (m.localType a).kind.slots = 1 := by simp [Kind.slots, narrow]
    have inThis := mem_span.mp inThis
    have inParam := mem_span.mp inParam
    rw [one] at inThis
    simp only [receivedIn] at inThis behind inParam
    omega
  have ordered : ∀ {a b : LocalId} {i j : Nat}, i < j → m.declares a (.param i) = true →
      m.declares b (.param j) = true →
      Disjoint (span (receivedIn m.paramSlots (.param i)) (m.localType a).kind)
        (span (receivedIn m.paramSlots (.param j)) (m.localType b).kind) := by
    intro a b i j order isEarly isLate k inEarly inLate
    obtain ⟨desc, found, slot, slots⟩ := parameter_slot isEarly
    obtain ⟨-, -, later, -⟩ := parameter_slot isLate
    have gap := place_apart order found slot later
    have inEarly := mem_span.mp inEarly
    have inLate := mem_span.mp inLate
    omega
  cases what <;> cases other <;> first | cases isFirst | cases isSecond | skip
  · exact absurd rfl different
  · exact receiver isFirst isSecond
  · exact (receiver isSecond isFirst).symm
  next i j =>
    rcases Nat.lt_trichotomy i j with order | same | order
    · exact ordered order isFirst isSecond
    · exact absurd (congrArg Head.param same) different
    · exact (ordered order isSecond isFirst).symm

theorem EntersBy.arrivesApart {stop : Nat} (enters : m.EntersBy stop) : m.ArrivesApart := by
  have listed : m.arrivals =
      m.received.map fun (id, what) => (id, receivedIn m.paramSlots what) := by
    rw [received, arrivals, map_filterMap]
    exact filterMap_congr fun a _ => arrival?_eq m.paramSlots a
  have locals := pairwise_map.mp enters.once.1
  have sources := pairwise_map.mp enters.once.2
  rw [ArrivesApart, listed, pairwise_map]
  refine (locals.and sources).imp_of_mem ?_
  rintro ⟨first, what⟩ ⟨second, other⟩ isFirst isSecond ⟨differentLocals, differentSources⟩
  exact ⟨differentLocals, received_disjoint (enters.declared _ isFirst)
    (enters.declared _ isSecond) differentSources⟩

/-! ## Frames -/

end Method

structure Frame (Cell : Type) where
  values : LocalId → Option (List Cell)
  slots : Nat → Cell

namespace Frame

variable {Cell : Type}

/-- The frame at the entry: no local has been given a value. -/
def entry (args : Nat → Cell) : Frame Cell := ⟨fun _ => none, args⟩

/-- A local is given a value that is in its slots already. -/
def name (frame : Frame Cell) (id : LocalId) (cells : List Cell) : Frame Cell :=
  { frame with values := Function.update frame.values id (some cells) }

def define (m : Method) (frame : Frame Cell) (id : LocalId) (cells : List Cell) : Frame Cell :=
  { values := Function.update frame.values id (some cells)
    slots := fun k => (((m.spanOf id).zip cells).lookup k).getD (frame.slots k) }

end Frame

/-- What a statement does to a frame when it ends normally. Definitions other than copies may give
any value their local has room for. -/
inductive Executes {Cell : Type} (m : Method) (args : Nat → Cell) :
    Action → Frame Cell → Frame Cell → Prop
  | quiet {a : Action} {frame : Frame Cell} (defines : a.defines? = none) :
    Executes m args a frame frame
  | arrive {a : Action} {frame : Frame Cell} (target : LocalId) (slot : Nat)
    (arrives : Method.arrival? m.paramSlots a = some (target, slot)) :
    Executes m args a frame
      (frame.name target ((SlotTable.span slot (m.localType target).kind).map args))
  | copy {a : Action} {frame : Frame Cell} (target source : LocalId) (slot : Nat)
    (defines : a.defines? = some target) (copies : Neighbours.copySource? a = some source)
    (placed : (m.local_ source).slot = some slot) :
    Executes m args a frame
      (frame.define m target ((SlotTable.span slot (m.localType target).kind).map frame.slots))
  | define {a : Action} {frame : Frame Cell} (target : LocalId) (cells : List Cell)
    (defines : a.defines? = some target) (arrives : Method.arrival? m.paramSlots a = none)
    (copies : ∀ source ∈ Neighbours.copySource? a, (m.local_ source).slot = none)
    (room : cells.length = (m.localType target).kind.slots) :
    Executes m args a frame (frame.define m target cells)

/-- The frames that can stand in front of a position, along any path from the entry. An exceptional
edge leaves a statement before its definition. -/
inductive Reaches {Cell : Type} (m : Method) (args : Nat → Cell) : Nat → Frame Cell → Prop
  | entry : Reaches m args 0 (.entry args)
  | next {position : Nat} (successor : Nat) {frame after : Frame Cell}
    (before : Reaches m args position frame)
    (edge : successor ∈ (Flow.ofMethod m).succsOf position)
    (executes : Executes m args ((Flow.ofMethod m).action position) frame after) :
    Reaches m args successor after
  | thrown {position handler : Nat} {frame : Frame Cell}
    (before : Reaches m args position frame)
    (edge : handler ∈ (Flow.ofMethod m).exSuccsOf position) :
    Reaches m args handler frame

namespace Frame

variable {slots : List Nat}

variable {Cell : Type} {m : Method} {frame : Frame Cell} {id : LocalId} {cells : List Cell}

theorem lookup_zip_of_not_mem {k : Nat} (outside : k ∉ slots) :
    (slots.zip cells).lookup k = none := by
  rw [lookup_eq_none_iff]
  rintro ⟨slot, cell⟩ member
  have different : k ≠ slot := fun same => outside (same ▸ (of_mem_zip member).1)
  simpa using different

theorem map_lookup_zip (distinct : slots.Nodup) (room : cells.length = slots.length)
    (old : Nat → Cell) :
    slots.map (fun k => ((slots.zip cells).lookup k).getD (old k)) = cells := by
  induction slots generalizing cells with
  | nil => exact (length_eq_zero_iff.mp room).symm
  | cons slot slots ih =>
    obtain ⟨absent, distinct⟩ := nodup_cons.mp distinct
    cases cells with
    | nil => cases room
    | cons cell cells =>
      have rest := ih distinct (by simpa using room)
      rw [map_cons, zip_cons_cons, lookup_cons_self, Option.getD_some]
      refine congrArg (cell :: ·) (Eq.trans (map_congr_left ?_) rest)
      intro k member
      have different : (k == slot) = false := by
        rw [beq_eq_false_iff_ne]
        rintro rfl
        exact absent member
      rw [lookup_cons, different]

theorem lookup_zip_map (slots : List Nat) (old : Nat → Cell) (k : Nat) :
    ((slots.zip (slots.map old)).lookup k).getD (old k) = old k := by
  induction slots with
  | nil => rfl
  | cons slot slots ih =>
    rw [map_cons, zip_cons_cons, lookup_cons]
    cases same : k == slot with
    | true => rw [Option.getD_some, beq_iff_eq.mp same]
    | false => exact ih

theorem map_define_self (placed : (m.local_ id).slot.isSome = true)
    (room : cells.length = (m.localType id).kind.slots) :
    (m.spanOf id).map (frame.define m id cells).slots = cells := by
  obtain ⟨slot, placed⟩ := Option.isSome_iff_exists.mp placed
  have here : m.spanOf id = SlotTable.span slot (m.localType id).kind := by
    rw [Method.spanOf, placed]
  refine map_lookup_zip ?_ ?_ frame.slots
  · rw [here]
    exact nodup_range'
  · rw [here, SlotTable.span, length_range', room]

theorem map_define_of_disjoint (apart : Disjoint (m.spanOf id) slots) :
    slots.map (frame.define m id cells).slots = slots.map frame.slots := by
  refine map_congr_left ?_
  intro k member
  have outside : k ∉ m.spanOf id := fun inside => apart inside member
  simp [define, lookup_zip_of_not_mem outside]

end Frame

namespace Method

open SlotTable (span mem_span)

variable {position successor : Nat} {a : Action} {target : LocalId} {what : Head}

/-- A copy is torn when its source is needed afterwards and its two locals share a slot, but do not
begin at the same one. -/
def Torn (m : Method) (position : Nat) : Prop :=
  ∃ target ∈ ((Flow.ofMethod m).action position).defines?,
    ∃ source ∈ Neighbours.copySource? ((Flow.ofMethod m).action position),
      Holds (Liveness.ofFlow (Flow.ofMethod m) m.locals.size).after position source ∧
        (m.local_ target).slot ≠ (m.local_ source).slot ∧
          ∃ k ∈ m.spanOf target, k ∈ m.spanOf source

instance (m : Method) (position : Nat) : Decidable (m.Torn position) :=
  inferInstanceAs (Decidable (∃ target ∈ ((Flow.ofMethod m).action position).defines?, _))

def KnowsLocals (m : Method) : Prop :=
  ∀ a ∈ m.actions, (∀ id ∈ a.uses, id < m.locals.size) ∧ ∀ id ∈ a.defines?, id < m.locals.size

instance (m : Method) : Decidable m.KnowsLocals :=
  inferInstanceAs (Decidable (∀ a ∈ m.actions, _))

section Path

variable {Cell : Type} {m n : Method} {stop : Nat} {args : Nat → Cell}

theorem SameButSlots.flow (same : SameButSlots m n) : ofMethod n = ofMethod m := by
  obtain ⟨locals, rfl⟩ := same.rest
  rfl

/-- What holds in front of a position: live locals are in their slots, and before the end of the
entry nothing was written. -/
structure Kept (m n : Method) (stop : Nat) (args : Nat → Cell) (position : Nat)
    (frame : Frame Cell) : Prop where
  held : ∀ id cells, Holds (Liveness.ofFlow (Flow.ofMethod m) m.locals.size).before position id →
    frame.values id = some cells → (n.spanOf id).map frame.slots = cells
  untouched : position < stop → frame.slots = args

theorem mem_reads (plain : a.isPhi = false) (id : LocalId) :
    a.reads.mem id = true ↔ id ∈ a.uses := by
  have none : a.phiArgs = [] := by
    cases a <;> first | rfl | cases plain
  simp [Action.reads, none]

theorem lt_of_edge
    (edge : successor ∈ (ofMethod m).succsOf position ++ (ofMethod m).exSuccsOf position) :
    position < (ofMethod m).size := by
  rw [size_ofMethod, ← length_actions]
  by_contra outside
  have none : m.actions[position]? = none := by simpa using outside
  simp [succsOf_ofMethod, exSuccsOf_ofMethod, none] at edge

theorem KnowsLocals.solves (known : m.KnowsLocals) (joinless : ∀ a ∈ m.actions, a.isPhi = false) :
    Liveness.Solves (ofMethod m) (Liveness.ofFlow (ofMethod m) m.locals.size) :=
  Liveness.solves_ofMethod fun a member id read =>
    (known a member).1 id ((mem_reads (joinless a member) id).mp read)

theorem mem_of_defines (defines : ((ofMethod m).action position).defines? = some target) :
    (ofMethod m).action position ∈ m.actions := by
  rcases action_mem_or m position with member | nothing
  · exact member
  · rw [nothing] at defines
    cases defines

theorem received?_defines (receives : received? a = some (target, what)) :
    a.defines? = some target := by
  unfold received? at receives
  split at receives
  all_goals cases receives
  all_goals rfl

variable (slotted : Slotted m n) (enters : m.EntersBy stop) (known : m.KnowsLocals)
  (joinless : ∀ a ∈ m.actions, a.isPhi = false)

include slotted enters known joinless

/-- A definition whose slots are not those of a source that is still needed keeps what holds. -/
theorem Kept.define {position successor : Nat} {frame : Frame Cell} {target : LocalId}
    {cells : List Cell} (kept : Kept m n stop args position frame)
    (edge : successor ∈ (ofMethod m).succsOf position)
    (receives : received? ((ofMethod m).action position) = none)
    (defines : ((ofMethod m).action position).defines? = some target)
    (room : cells.length = (m.localType target).kind.slots)
    (copied : ∀ source, Neighbours.copySource? ((ofMethod m).action position) = some source →
      Holds (Liveness.ofFlow (ofMethod m) m.locals.size).after position source →
        (n.spanOf source).map (frame.define n target cells).slots =
          (n.spanOf source).map frame.slots) :
    Kept m n stop args successor (frame.define n target cells) := by
  have inside := lt_of_edge (mem_append_left _ edge)
  have solves := known.solves joinless
  have targetKnown := (known _ (mem_of_defines defines)).2 target defines
  refine ⟨?_, ?_⟩
  · intro id value live given
    have after := solves.next position inside successor edge id live
    by_cases same : id = target
    · subst same
      simp only [Frame.define, Function.update_self] at given
      cases given
      refine Frame.map_define_self ?_ (by rwa [slotted.same.type_eq])
      exact slotted.defined id (Neighbours.mem_defined defines inside) targetKnown
    · have before : Holds _ position id := solves.kept position inside id after fun here =>
        same (Option.some.inj (here.symm.trans defines))
      simp only [Frame.define, Function.update_of_ne same] at given
      have old := kept.held id value before given
      by_cases source : Neighbours.copySource? ((ofMethod m).action position) = some id
      · rw [← old]
        exact copied id source after
      · rw [← old]
        refine Frame.map_define_of_disjoint ?_
        exact slotted.apart target id (Ne.symm same)
          (Neighbours.conflict_of_live defines inside targetKnown after same source)
  · intro early
    have straight := enters.straight position inside successor (mem_append_left _ edge) early
    have only := enters.only position (by omega) (by rw [defines]; rfl)
    rw [receives] at only
    cases only

variable {frame : Frame Cell}

theorem Kept.name (kept : Kept m n stop args position frame)
    (edge : successor ∈ (ofMethod m).succsOf position)
    (receives : received? ((ofMethod m).action position) = some (target, what)) :
    Kept m n stop args successor (frame.name target
      ((span (receivedIn m.paramSlots what) (m.localType target).kind).map args)) := by
  have inside := lt_of_edge (mem_append_left _ edge)
  have solves := known.solves joinless
  have early := enters.early position inside (by rw [receives]; rfl)
  have defines := received?_defines receives
  have member := mem_of_defines defines
  refine ⟨?_, fun _ => kept.untouched early⟩
  intro id cells live given
  have later := solves.next position inside successor edge id live
  by_cases same : id = target
  · subst same
    simp only [Frame.name, Function.update_self] at given
    cases given
    have listed : (id, receivedIn m.paramSlots what) ∈ m.arrivals := by
      refine mem_filterMap.mpr ⟨_, member, ?_⟩
      rw [arrival?_eq, receives]
      rfl
    rw [spanOf, slotted.arrived _ listed ((known _ member).2 id defines), Frame.name,
      kept.untouched early, slotted.same.type_eq]
  · simp only [Frame.name, Function.update_of_ne same] at given
    refine kept.held id cells (solves.kept position inside id later fun here => ?_) given
    exact same (Option.some.inj (here.symm.trans defines))

section

variable (whole : ∀ position < (ofMethod m).size, ¬n.Torn position)

include whole

/-- A statement that ends normally keeps what holds, unless it is a torn copy. -/
theorem Kept.execute {after : Frame Cell} (kept : Kept m n stop args position frame)
    (edge : successor ∈ (ofMethod m).succsOf position)
    (executes : Executes n args ((ofMethod m).action position) frame after) :
    Kept m n stop args successor after := by
  have inside := lt_of_edge (mem_append_left _ edge)
  have solves := known.solves joinless
  have params : n.paramSlots = m.paramSlots := by
    obtain ⟨locals, rfl⟩ := slotted.same.rest
    rfl
  have straight := enters.straight position inside successor (mem_append_left _ edge)
  cases executes with
  | quiet quiet =>
    refine ⟨?_, fun early => kept.untouched (by have := straight early; omega)⟩
    intro id cells live given
    have later := solves.next position inside successor edge id live
    exact kept.held id cells (solves.kept position inside id later (by simp [quiet])) given
  | arrive target slot arrives =>
    rw [params, arrival?_eq, Option.map_eq_some_iff] at arrives
    obtain ⟨⟨_, what⟩, receives, same⟩ := arrives
    cases same
    rw [slotted.same.type_eq]
    exact kept.name slotted enters known joinless edge receives
  | copy target source slot defines copies placed =>
    have receives : received? ((ofMethod m).action position) = none := by
      generalize (ofMethod m).action position = a at copies
      cases a <;> first | rfl | cases copies
    refine kept.define slotted enters known joinless edge receives defines
      (by simp [SlotTable.span, slotted.same.type_eq]) ?_
    intro other isOther needed
    cases copies.symm.trans isOther
    by_cases sameSlot : (n.local_ target).slot = (n.local_ source).slot
    · refine map_congr_left fun k _ => ?_
      have here : n.spanOf target = span slot (n.localType target).kind := by
        rw [spanOf, sameSlot, placed]
      simp only [Frame.define, here]
      exact Frame.lookup_zip_map _ _ k
    · refine Frame.map_define_of_disjoint ?_
      by_contra shared
      refine whole position inside ⟨target, ?_, source, ?_, ?_⟩
      all_goals rw [slotted.same.flow]
      · exact defines
      · exact copies
      · rw [slotted.same.size_eq]
        exact ⟨needed, sameSlot, by simpa [List.Disjoint] using shared⟩
  | define target cells defines arrives copies room =>
    have receives : received? ((ofMethod m).action position) = none := by
      rwa [arrival?_eq, Option.map_eq_none_iff] at arrives
    refine kept.define slotted enters known joinless edge receives defines
      (by rw [room, slotted.same.type_eq]) ?_
    intro source copied _
    rw [spanOf, copies source copied]
    rfl

theorem kept_of_reaches
    (reaches : Reaches n args position frame) : Kept m n stop args position frame := by
  have solves := known.solves joinless
  induction reaches with
  | entry => exact ⟨fun _ _ _ given => (nomatch given), fun _ => rfl⟩
  | next _ _ edge executes ih =>
    rw [slotted.same.flow] at edge executes
    exact ih.execute slotted enters known joinless whole edge executes
  | @thrown position handler frame _ edge ih =>
    rw [slotted.same.flow] at edge
    have inside := lt_of_edge (mem_append_right _ edge)
    refine ⟨?_, ?_⟩
    · intro id cells live given
      exact ih.held id cells (solves.thrown position inside handler edge id live) given
    · intro early
      have straight := enters.straight position inside handler (mem_append_right _ edge) early
      exact ih.untouched (by omega)

end

end Path

/-- Along every path, the slots of a local hold the value it was last given wherever it is read,
when no copy is torn. -/
theorem slots_hold_values (m : Method) (reuse : Bool) (stop : Nat)
    (joinless : ∀ a ∈ m.actions, a.isPhi = false) (known : m.KnowsLocals)
    (enters : m.EntersBy stop)
    (whole : ∀ position < (Flow.ofMethod m).size, ¬(m.assignSlots reuse).Torn position)
    {Cell : Type} (args : Nat → Cell) {position : Nat} {frame : Frame Cell}
    (reaches : Reaches (m.assignSlots reuse) args position frame) :
    ∀ id ∈ ((Flow.ofMethod m).action position).uses, ∀ cells, frame.values id = some cells →
      ((m.assignSlots reuse).spanOf id).map frame.slots = cells := by
  have slotted := slotted_assignSlots enters.arrivesApart reuse
  intro id read cells given
  refine (kept_of_reaches slotted enters known joinless whole reaches).held id cells ?_ given
  rcases Flow.action_mem_or m position with member | nothing
  · have inside : position < (Flow.ofMethod m).size := by
      by_contra outside
      have none : m.actions[position]? = none := by
        simpa using outside
      rw [Flow.action_ofMethod, none] at read
      simp [Action.uses, Action.operands, Action.value?] at read
    exact (known.solves joinless).read position inside id
      ((mem_reads (joinless _ member) id).mpr read)
  · rw [nothing] at read
    simp [Action.uses, Action.operands, Action.value?] at read

/-- A method that passes its parameter on twice, the second time from a copy. -/
def passing : Method :=
  { owner := "La;", name := "m", desc := "(J)V", access := ⟨8⟩, params := ["J"], result := "V"
    locals := #[{ type := { kind := .long } }, { type := { kind := .long } }]
    stmts := #[⟨.identity 0 (.leaf (.param 0)), none⟩, ⟨.assign 1 (.read 0), none⟩,
      ⟨passed 0, none⟩, ⟨passed 1, none⟩, ⟨.return none, none⟩]
    order := #[0, 1, 2, 3, 4] }
where
  /-- Calls a method with a local. -/
  passed (id : LocalId) : Action :=
    .void (.node (.invoke .static ⟨"La;", "f", ⟨["J"], "V"⟩⟩) [.read id])

/-- The copy takes the slots of the parameter, and both hold its value when they are read. -/
theorem slots_hold_values_passing :
    ∃ frame, Reaches (passing.assignSlots true) (· + 7) 3 frame ∧
      frame.values 1 = some [7, 8] ∧
        ((passing.assignSlots true).spanOf 1).map frame.slots = [7, 8] := by
  have start : Reaches (passing.assignSlots true) (· + 7) 0 (.entry (· + 7)) := .entry
  have named := start.next 1 (by decide +kernel) (.arrive 0 0 (by decide +kernel))
  have copied := named.next 2 (by decide +kernel)
    (.copy 1 0 0 (by decide +kernel) (by decide +kernel) (by decide +kernel))
  have called := copied.next 3 (by decide +kernel) (.quiet (by decide +kernel))
  have known : passing.KnowsLocals := by decide +kernel
  have enters : passing.EntersBy 1 :=
    ⟨by decide +kernel, by decide +kernel, by decide +kernel, by decide +kernel, by decide +kernel⟩
  exact ⟨_, called, by decide +kernel, slots_hold_values passing true 1 (by decide +kernel) known
    enters (by decide +kernel) (· + 7) called 1 (by decide +kernel) [7, 8] (by decide +kernel)⟩

/-- A method that copies a long into a local that is placed one slot behind it. -/
def tearing : Method :=
  { owner := "La;", name := "m", desc := "()V", access := ⟨8⟩, params := [], result := "V"
    locals := #[{ type := .int }, { type := { kind := .long } }, { type := { kind := .long } }]
    stmts := #[⟨.assign 0 (.ofInt 0), none⟩, ⟨.assign 1 (.number { kind := .long } 7), none⟩,
      ⟨.assign 2 (.read 1), none⟩, ⟨passing.passed 1, none⟩, ⟨.assign 0 (.ofInt 1), none⟩,
      ⟨passing.passed 0, none⟩, ⟨passing.passed 2, none⟩, ⟨.return none, none⟩]
    order := #[0, 1, 2, 3, 4, 5, 6, 7] }

/-- The torn copy overwrites half of its source, which is read right after it. -/
theorem torn_copy_loses_value :
    (∀ a ∈ tearing.actions, a.isPhi = false) ∧ tearing.KnowsLocals ∧ tearing.EntersBy 0 ∧
      ∃ frame, Reaches (tearing.assignSlots true) (fun _ => 0) 3 frame ∧
        1 ∈ ((Flow.ofMethod tearing).action 3).uses ∧ frame.values 1 = some [7, 8] ∧
          ((tearing.assignSlots true).spanOf 1).map frame.slots = [7, 7] := by
  refine ⟨by decide +kernel, by decide +kernel, ?_, ?_⟩
  · exact ⟨by decide +kernel, by decide +kernel, by decide +kernel, by decide +kernel,
      by decide +kernel⟩
  · have start : Reaches (tearing.assignSlots true) (fun _ => 0) 0 (.entry fun _ => 0) := .entry
    have first := start.next 1 (by decide +kernel)
      (.define 0 [5] (by decide +kernel) (by decide +kernel) (by decide +kernel)
        (by decide +kernel))
    have second := first.next 2 (by decide +kernel)
      (.define 1 [7, 8] (by decide +kernel) (by decide +kernel) (by decide +kernel)
        (by decide +kernel))
    have third := second.next 3 (by decide +kernel)
      (.copy 2 1 0 (by decide +kernel) (by decide +kernel) (by decide +kernel))
    exact ⟨_, third, by decide +kernel, by decide +kernel, by decide +kernel⟩

end Method

end DexLift.Ir
