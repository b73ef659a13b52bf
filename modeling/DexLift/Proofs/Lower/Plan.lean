import DexLift.Lower.Plan
import DexLift.Proofs.Tables
import Mathlib.Data.List.Basic
import Mathlib.Data.List.Sort

/-!
# What a plan guarantees

The blocks of a plan are the ranges between neighbouring starts, followed by the
blocks in front of handlers. Every edge of control is entered at its target. A
handler is entered either by exceptions or normally: where both would happen,
the exceptions go through the block in front of it, which is where the handler
lands.
-/

namespace DexLift.Lower

open Ir List

/-! ## Starts of blocks -/

namespace Source

variable {index block : Nat}

variable (s : Source)

theorem mem_starts :
    index ∈ s.starts ↔ index < s.instructions.size ∧
      (index = 0 ∨ index ∈ s.tries.flatMap s.leadersOfTry ∨
        ∃ other < s.instructions.size, index ∈ s.leadersOf other) := by
  simp [starts]

theorem starts_sorted : s.starts.Pairwise (· < ·) :=
  List.Pairwise.filter _ pairwise_lt_range

theorem starts_head (nonempty : 0 < s.instructions.size) : s.starts[0]? = some 0 := by
  have member : 0 ∈ s.starts := s.mem_starts.mpr ⟨nonempty, .inl rfl⟩
  obtain ⟨first, rest, split⟩ := exists_cons_of_ne_nil (ne_nil_of_mem member)
  have sorted := s.starts_sorted
  rw [split] at member sorted ⊢
  rcases mem_cons.mp member with rfl | later
  · rfl
  · exact absurd ((pairwise_cons.mp sorted).1 0 later) (Nat.not_lt_zero _)

/-- Where the block at a position begins. -/
def startOf (block : Nat) : Nat := s.starts.getD block 0

/-- Where the block at a position ends: where the next one begins, or with the code. -/
def stopOf (block : Nat) : Nat := s.starts.getD (block + 1) s.instructions.size

variable {s}

theorem startOf_mem (inside : block < s.starts.length) : s.startOf block ∈ s.starts := by
  simp [startOf, inside]

theorem startOf_lt {other : Nat} (before : block < other) (inside : other < s.starts.length) :
    s.startOf block < s.startOf other := by
  have less := pairwise_iff_getElem.mp s.starts_sorted block other (by omega) inside before
  simpa [startOf, inside, show block < s.starts.length by omega] using less

theorem startOf_injective {other : Nat} (inside : block < s.starts.length)
    (insideOther : other < s.starts.length) (same : s.startOf block = s.startOf other) :
    block = other := by
  rcases Nat.lt_trichotomy block other with before | here | behind
  · have less := startOf_lt before insideOther
    omega
  · exact here
  · have less := startOf_lt behind inside
    omega

theorem startOf_of_mem (start : index ∈ s.starts) :
    ∃ block < s.starts.length, s.startOf block = index ∧ s.starts.idxOf? index = some block := by
  obtain ⟨block, inside, found⟩ := getElem_of_mem start
  have here : s.startOf block = index := by simp [startOf, inside, found]
  refine ⟨block, inside, here, ?_⟩
  rw [idxOf?_eq_some_iff]
  refine ⟨inside, by simp [found], ?_⟩
  intro other before
  have less := startOf_lt before inside
  have known : s.startOf other = s.starts[other] := by
    simp [startOf, show other < s.starts.length by omega]
  simp only [ne_eq]
  omega

theorem startOf_succ (inside : block + 1 < s.starts.length) :
    s.startOf (block + 1) = s.stopOf block := by
  simp [startOf, stopOf, inside]

theorem startOf_lt_stopOf (inside : block < s.starts.length) :
    s.startOf block < s.stopOf block := by
  by_cases last : block + 1 < s.starts.length
  · rw [← startOf_succ last]
    exact startOf_lt (by omega) last
  · have stop : s.stopOf block = s.instructions.size := by simp [stopOf, last]
    rw [stop]
    exact (s.mem_starts.mp (startOf_mem inside)).1

theorem stopOf_le : s.stopOf block ≤ s.instructions.size := by
  by_cases last : block + 1 < s.starts.length
  · have member : s.startOf (block + 1) ∈ s.starts := startOf_mem last
    rw [startOf_succ last] at member
    exact le_of_lt (s.mem_starts.mp member).1
  · simp [stopOf, last]

theorem not_start_between (known : block < s.starts.length) (after : s.startOf block < index)
    (before : index < s.stopOf block) : index ∉ s.starts := by
  intro member
  obtain ⟨other, inside, rfl, -⟩ := startOf_of_mem member
  rcases Nat.lt_trichotomy other block with earlier | rfl | later
  · have less := startOf_lt earlier known
    omega
  · omega
  · rw [← startOf_succ (by omega)] at before
    rcases Nat.eq_or_lt_of_le (show block + 1 ≤ other by omega) with rfl | more
    · omega
    · have less := startOf_lt more inside
      omega

end Source

/-! ## Making the blocks -/

namespace Plan

variable {s : Source} {change : PlannedBlock → PlannedBlock} {blocks after : Array PlannedBlock}
  {k handler front : Nat}

/-- The block at a position before edges are entered. -/
def initial (s : Source) (block : Nat) : PlannedBlock :=
  { label := .number block, start := s.startOf block, stop := s.stopOf block
    succs := normalSuccs s s.starts block (s.at_ (s.stopOf block - 1))
    exSuccs := thrownSuccs s s.starts (s.startOf block) (s.stopOf block) }

def blank (base : Method) (count : Nat) : Method :=
  { base with placed := Array.replicate count none }

theorem newLabel_blank (base : Method) (count : Nat) :
    (blank base count).newLabel = (.number count, blank base (count + 1)) := by
  simp [blank, Method.newLabel, Array.replicate_succ]

/-- Makes the block between two places. -/
def addBlock (s : Source) (state : Method × Array PlannedBlock) (place : (Nat × Nat) × Nat) :
    Method × Array PlannedBlock :=
  let (label, m) := state.1.newLabel
  let b : PlannedBlock :=
    { label, start := place.1.1, stop := place.1.2
      succs := normalSuccs s s.starts place.2 (s.at_ (place.1.2 - 1))
      exSuccs := thrownSuccs s s.starts place.1.1 place.1.2 }
  (m, state.2.push b)

/-- The places between which blocks lie. -/
def places (s : Source) : List ((Nat × Nat) × Nat) :=
  (s.starts.zip (s.starts.tail ++ [s.instructions.size])).zipIdx

theorem length_places (s : Source) : (places s).length = s.starts.length := by
  simp [places]
  omega

theorem places_get {block : Nat} (inside : block < s.starts.length) :
    (places s)[block]? = some ((s.startOf block, s.stopOf block), block) := by
  have stop : (s.starts.tail ++ [s.instructions.size])[block]? = some (s.stopOf block) := by
    by_cases last : block + 1 < s.starts.length
    · rw [getElem?_append_left (by simp; omega)]
      simp [Source.stopOf, last]
    · have behind : block - s.starts.tail.length = 0 := by
        simp
        omega
      rw [getElem?_append_right (by simp; omega), behind]
      simp [Source.stopOf, last]
  have start : s.starts[block]? = some (s.startOf block) := by
    simp [Source.startOf, inside]
  simp [places, getElem?_zipIdx, getElem?_zip_eq_some, start, stop]

theorem addBlocks_take (s : Source) (base : Method) (count : Nat) (inside : count ≤ s.starts.length) :
    ((places s).take count).foldl (addBlock s) (blank base 0, #[]) =
      (blank base count, ((List.range count).map (initial s)).toArray) := by
  induction count with
  | zero => simp
  | succ count ih =>
    rw [take_add_one, places_get (by omega), foldl_append, ih (by omega)]
    simp [addBlock, newLabel_blank, initial, range_succ]

theorem addBlocks (s : Source) (base : Method) :
    (places s).foldl (addBlock s) (blank base 0, #[]) =
      (blank base s.starts.length, ((List.range s.starts.length).map (initial s)).toArray) := by
  have all := addBlocks_take s base s.starts.length le_rfl
  rwa [take_of_length_le (le_of_eq (length_places s))] at all

/-! ## Entering edges -/

/-- What entering edges changes about a block: it has more ways in. -/
structure Opened (b c : PlannedBlock) : Prop where
  label : c.label = b.label
  start : c.start = b.start
  stop : c.stop = b.stop
  succs : c.succs = b.succs
  exSuccs : c.exSuccs = b.exSuccs
  leadsTo : c.leadsTo = b.leadsTo
  preds : ∀ e ∈ b.preds, e ∈ c.preds
  isHandler : b.isHandler = true → c.isHandler = true

def OpenedAll (blocks more : Array PlannedBlock) : Prop :=
  more.size = blocks.size ∧ ∀ k, Opened (blocks.getD k default) (more.getD k default)

theorem Opened.refl (b : PlannedBlock) : Opened b b :=
  ⟨rfl, rfl, rfl, rfl, rfl, rfl, fun _ => id, id⟩

theorem Opened.trans {a b c : PlannedBlock} (first : Opened a b) (second : Opened b c) :
    Opened a c :=
  ⟨second.label.trans first.label, second.start.trans first.start, second.stop.trans first.stop,
    second.succs.trans first.succs, second.exSuccs.trans first.exSuccs,
    second.leadsTo.trans first.leadsTo, fun e found => second.preds e (first.preds e found),
    fun handler => second.isHandler (first.isHandler handler)⟩

theorem OpenedAll.refl (blocks : Array PlannedBlock) : OpenedAll blocks blocks :=
  ⟨rfl, fun _ => .refl _⟩

theorem OpenedAll.trans {a b c : Array PlannedBlock} (first : OpenedAll a b)
    (second : OpenedAll b c) : OpenedAll a c :=
  ⟨second.1.trans first.1, fun k => (first.2 k).trans (second.2 k)⟩

section

variable (opens : ∀ b, Opened b (change b))

include opens

theorem openedAll_modify (place : Nat)
    (blocks : Array PlannedBlock) : OpenedAll blocks (blocks.modify place change) := by
  refine ⟨by simp, ?_⟩
  intro k
  rw [getD_modify]
  split
  · exact opens _
  · exact .refl _

theorem openedAll_foldl (targets : List Nat) (blocks : Array PlannedBlock) :
    OpenedAll blocks (targets.foldl (fun blocks s => blocks.modify s change) blocks) := by
  induction targets generalizing blocks with
  | nil => exact .refl blocks
  | cons first rest ih =>
    exact (openedAll_modify opens first blocks).trans (ih _)

theorem opened_foldl_of_mem {targets : List Nat}
    (target : k ∈ targets) (inside : k < blocks.size) :
    ∃ b, Opened (change b)
      ((targets.foldl (fun blocks s => blocks.modify s change) blocks).getD k default) := by
  induction targets generalizing blocks with
  | nil => cases target
  | cons first rest ih =>
    rcases mem_cons.mp target with rfl | later
    · refine ⟨blocks.getD k default, ?_⟩
      have rest := (openedAll_foldl opens rest (blocks.modify k change)).2 k
      rwa [getD_modify, if_pos ⟨rfl, inside⟩] at rest
    · exact ih later (by simpa using inside)

end

/-- The edges that leave a block are entered where they lead. -/
structure Entered (blocks : Array PlannedBlock) (k : Nat) : Prop where
  normal : ∀ t ∈ (blocks.getD k default).succs, ⟨some k, false⟩ ∈ (blocks.getD t default).preds
  thrown : ∀ t ∈ (blocks.getD k default).exSuccs,
    ⟨some k, true⟩ ∈ (blocks.getD t default).preds ∧ (blocks.getD t default).isHandler = true

theorem Entered.opened {more : Array PlannedBlock} (entered : Entered blocks k)
    (opened : OpenedAll blocks more) : Entered more k := by
  refine ⟨?_, ?_⟩
  · intro t target
    rw [(opened.2 k).succs] at target
    exact (opened.2 t).preds _ (entered.normal t target)
  · intro t target
    rw [(opened.2 k).exSuccs] at target
    have before := entered.thrown t target
    exact ⟨(opened.2 t).preds _ before.1, (opened.2 t).isHandler before.2⟩

theorem opened_enter (e : Edge) (b : PlannedBlock) : Opened b { b with preds := b.preds ++ [e] } :=
  ⟨rfl, rfl, rfl, rfl, rfl, rfl, fun _ found => mem_append_left _ found, id⟩

theorem opened_handle (e : Edge) (b : PlannedBlock) :
    Opened b { b with preds := b.preds ++ [e], isHandler := true } :=
  ⟨rfl, rfl, rfl, rfl, rfl, rfl, fun _ found => mem_append_left _ found, fun _ => rfl⟩

theorem openedAll_enterPreds (blocks : Array PlannedBlock) (k : Nat) :
    OpenedAll blocks (enterPreds blocks k) :=
  (openedAll_foldl (opened_enter _) _ _).trans (openedAll_foldl (opened_handle _) _ _)

theorem entered_enterPreds
    (inside : ∀ t ∈ (blocks.getD k default).succs ++ (blocks.getD k default).exSuccs,
      t < blocks.size) : Entered (enterPreds blocks k) k := by
  have opened := openedAll_enterPreds blocks k
  refine ⟨?_, ?_⟩
  · intro t target
    rw [(opened.2 k).succs] at target
    obtain ⟨b, after⟩ := opened_foldl_of_mem (opened_enter ⟨some k, false⟩) target
      (inside t (mem_append_left _ target))
    refine ((openedAll_foldl (opened_handle ⟨some k, true⟩) _ _).2 t).preds _ ?_
    exact after.preds _ (by simp)
  · intro t target
    rw [(opened.2 k).exSuccs] at target
    have first := openedAll_foldl (opened_enter ⟨some k, false⟩) (blocks.getD k default).succs blocks
    have known : t < ((blocks.getD k default).succs.foldl (fun blocks s =>
        blocks.modify s fun b => { b with preds := b.preds ++ [⟨some k, false⟩] }) blocks).size := by
      rw [first.1]
      exact inside t (mem_append_right _ target)
    obtain ⟨b, after⟩ := opened_foldl_of_mem (opened_handle ⟨some k, true⟩) target known
    exact ⟨after.preds _ (by simp), after.isHandler rfl⟩

theorem enterAll (ks : List Nat)
    (inside : ∀ k, ∀ t ∈ (blocks.getD k default).succs ++ (blocks.getD k default).exSuccs,
      t < blocks.size) :
    OpenedAll blocks (ks.foldl enterPreds blocks) ∧
      ∀ k ∈ ks, Entered (ks.foldl enterPreds blocks) k := by
  induction ks generalizing blocks with
  | nil => exact ⟨.refl blocks, by simp⟩
  | cons first rest ih =>
    have opened := openedAll_enterPreds blocks first
    have still : ∀ k, ∀ t ∈ ((enterPreds blocks first).getD k default).succs ++
        ((enterPreds blocks first).getD k default).exSuccs, t < (enterPreds blocks first).size := by
      intro k t target
      rw [(opened.2 k).succs, (opened.2 k).exSuccs] at target
      rw [opened.1]
      exact inside k t target
    obtain ⟨later, entered⟩ := ih still
    refine ⟨opened.trans later, ?_⟩
    intro k member
    rcases mem_cons.mp member with rfl | more
    · exact (entered_enterPreds (inside k)).opened later
    · exact entered k more

/-! ## Handlers that are entered normally too -/

/-- Where exceptions for a handler land: in the block in front of it, if there is one. -/
def landing (blocks : Array PlannedBlock) (handler : Nat) : Nat :=
  (blocks.findIdx? fun b => b.leadsTo == some handler).getD handler

theorem landing_of_first (inside : k < blocks.size)
    (leads : (blocks.getD k default).leadsTo = some handler)
    (first : ∀ j < k, (blocks.getD j default).leadsTo ≠ some handler) :
    landing blocks handler = k := by
  have found : blocks.findIdx? (fun b => b.leadsTo == some handler) = some k := by
    rw [Array.findIdx?_eq_some_iff_getElem]
    refine ⟨inside, by simpa [Array.getD_eq_getD_getElem?, inside] using leads, ?_⟩
    intro j before
    have other := first j before
    simpa [Array.getD_eq_getD_getElem?, show j < blocks.size by omega] using other
  rw [landing, found]
  rfl

theorem landing_of_none (none : ∀ j < blocks.size, (blocks.getD j default).leadsTo ≠ some handler) :
    landing blocks handler = handler := by
  have found : blocks.findIdx? (fun b => b.leadsTo == some handler) = Option.none := by
    rw [Array.findIdx?_eq_none_iff]
    intro b member
    obtain ⟨j, inside, rfl⟩ := Array.getElem_of_mem member
    have other := none j inside
    simpa [Array.getD_eq_getD_getElem?, inside] using other
  rw [landing, found]
  rfl

theorem landing_cases (blocks : Array PlannedBlock) (handler : Nat) :
    (landing blocks handler = handler ∧
      ∀ j < blocks.size, (blocks.getD j default).leadsTo ≠ some handler) ∨
    (landing blocks handler < blocks.size ∧
      (blocks.getD (landing blocks handler) default).leadsTo = some handler ∧
      ∀ j < landing blocks handler, (blocks.getD j default).leadsTo ≠ some handler) := by
  by_cases leads : ∃ k, k < blocks.size ∧ (blocks.getD k default).leadsTo = some handler
  · right
    have inside := (Nat.find_spec leads).1
    have first : ∀ j < Nat.find leads, (blocks.getD j default).leadsTo ≠ some handler := by
      intro j before same
      exact Nat.find_min leads before ⟨by omega, same⟩
    rw [landing_of_first inside (Nat.find_spec leads).2 first]
    exact ⟨inside, (Nat.find_spec leads).2, first⟩
  · left
    have none : ∀ j < blocks.size, (blocks.getD j default).leadsTo ≠ some handler :=
      fun j inside same => leads ⟨j, inside, same⟩
    exact ⟨landing_of_none none, none⟩

/-- What holds of the blocks of a source while handlers are split. -/
structure Sound (s : Source) (blocks : Array PlannedBlock) : Prop where
  count : s.starts.length ≤ blocks.size
  label : ∀ k < blocks.size, (blocks.getD k default).label = .number k
  start : ∀ k < s.starts.length, (blocks.getD k default).start = s.startOf k
  stop : ∀ k < s.starts.length, (blocks.getD k default).stop = s.stopOf k
  succs : ∀ k < s.starts.length, (blocks.getD k default).succs = (initial s k).succs
  leadsTo : ∀ k < s.starts.length, (blocks.getD k default).leadsTo = none
  front : ∀ k < blocks.size, s.starts.length ≤ k → ∃ h < s.starts.length,
    (blocks.getD k default).leadsTo = some h ∧ (blocks.getD k default).succs = [h] ∧
      (blocks.getD k default).exSuccs = []
  thrown : ∀ k < s.starts.length,
    (blocks.getD k default).exSuccs = (initial s k).exSuccs.map (landing blocks)
  entered : ∀ k < blocks.size, Entered blocks k
  entry : ⟨none, false⟩ ∈ (blocks.getD 0 default).preds
  split : ∀ k < blocks.size, ∀ h, (blocks.getD k default).leadsTo = some h →
    (blocks.getD h default).isHandler = false

theorem blockOf_lt (s : Source) (addr : UInt32) (nonempty : 0 < s.starts.length) :
    blockOf s s.starts addr < s.starts.length := by
  unfold blockOf
  cases found : s.starts.idxOf? ((s.indexOf? addr).getD 0) with
  | none => exact nonempty
  | some k => exact (idxOf?_eq_some_iff.mp found).1

theorem mem_foldl_handlers (s : Source) (handlers : List Dex.Handler) (found : List Nat) (t : Nat) :
    t ∈ handlers.foldl (fun found h =>
        if found.contains (blockOf s s.starts h.addr) then found
        else found ++ [blockOf s s.starts h.addr]) found ↔
      t ∈ found ∨ ∃ h ∈ handlers, blockOf s s.starts h.addr = t := by
  induction handlers generalizing found with
  | nil => simp
  | cons first rest ih =>
    rw [foldl_cons, ih]
    by_cases known : blockOf s s.starts first.addr ∈ found
    · simp only [contains_eq_mem, known, decide_true, if_true, mem_cons, exists_eq_or_imp]
      constructor
      · rintro (old | new)
        · exact .inl old
        · exact .inr (.inr new)
      · rintro (old | rfl | new)
        · exact .inl old
        · exact .inl known
        · exact .inr new
    · simp [known, or_assoc, eq_comm]

theorem mem_thrownSuccs {start stop t : Nat} :
    t ∈ thrownSuccs s s.starts start stop ↔
      ∃ index, s.throwingIn? start stop = some index ∧
        ∃ h ∈ (s.tries.filter fun t => Source.covers t (s.at_ index).addr).flatMap Dex.Try.handlers,
          blockOf s s.starts h.addr = t := by
  unfold thrownSuccs
  cases s.throwingIn? start stop with
  | none => simp
  | some index =>
    rw [mem_foldl_handlers]
    simp

theorem thrownSuccs_lt {start stop t : Nat} (nonempty : 0 < s.starts.length)
    (target : t ∈ thrownSuccs s s.starts start stop) : t < s.starts.length := by
  obtain ⟨_, -, h, -, rfl⟩ := mem_thrownSuccs.mp target
  exact blockOf_lt s h.addr nonempty

theorem normalSuccs_lt {t : Nat} {last : Dex.Instruction} (nonempty : 0 < s.starts.length)
    (target : t ∈ normalSuccs s s.starts k last) : t < s.starts.length := by
  simp only [normalSuccs, mem_append, mem_map] at target
  rcases target with (branched | ⟨addr, -, rfl⟩) | next
  · split at branched
    · rw [mem_singleton.mp branched]
      exact blockOf_lt s _ nonempty
    · cases branched
  · exact blockOf_lt s addr nonempty
  · split at next
    next known =>
      rw [mem_singleton.mp next]
      simp only [Bool.and_eq_true, decide_eq_true_eq] at known
      exact known.2
    · cases next

theorem Sound.landing_eq_or_le (sound : Sound s blocks) (h : Nat) :
    landing blocks h = h ∨ s.starts.length ≤ landing blocks h := by
  rcases landing_cases blocks h with ⟨same, -⟩ | ⟨-, leads, -⟩
  · exact .inl same
  · right
    by_contra early
    rw [sound.leadsTo _ (by omega)] at leads
    cases leads

theorem Sound.mem_lt (sound : Sound s blocks) {t : Nat} (inside : k < blocks.size)
    (target : t ∈ (blocks.getD k default).succs ∨ t ∈ (blocks.getD k default).exSuccs) :
    t < blocks.size := by
  have entered := sound.entered k inside
  by_contra outside
  have nothing : blocks.getD t default = default := by
    simp [Nat.not_lt.mp outside]
  rcases target with normal | thrown
  · have way := entered.normal t normal
    rw [nothing] at way
    cases way
  · have way := (entered.thrown t thrown).1
    rw [nothing] at way
    cases way

theorem Sound.landing_of_isHandler (sound : Sound s blocks) {h : Nat}
    (handles : (blocks.getD h default).isHandler = true) : landing blocks h = h := by
  rcases landing_cases blocks h with ⟨same, -⟩ | ⟨inside, leads, -⟩
  · exact same
  · rw [sound.split _ inside h leads] at handles
    cases handles

theorem redirect_redirect (other : front ≠ handler) (b : PlannedBlock) :
    redirect handler front (redirect handler front b) = redirect handler front b := by
  simp only [redirect, map_map]
  congr 1
  apply map_congr_left
  intro t _
  by_cases same : t = handler
  · simp [same, other]
  · simp [same]

theorem redirect_of_not_mem {b : PlannedBlock} (absent : handler ∉ b.exSuccs) :
    redirect handler front b = b := by
  have same : b.exSuccs.map (fun t => if t = handler then front else t) = b.exSuccs := by
    conv_rhs => rw [← map_id b.exSuccs]
    apply map_congr_left
    intro t member
    have different : t ≠ handler := fun equal => absent (equal ▸ member)
    simp [different]
  unfold redirect
  rw [same]

theorem redirectAll_getD (other : front ≠ handler) (edges : List Edge) (blocks : Array PlannedBlock)
    (k : Nat) :
    (redirectAll handler front edges blocks).size = blocks.size ∧
      ((redirectAll handler front edges blocks).getD k default = blocks.getD k default ∨
        (redirectAll handler front edges blocks).getD k default =
          redirect handler front (blocks.getD k default)) ∧
      ((∃ e ∈ edges, e.source = some k) → k < blocks.size →
        (redirectAll handler front edges blocks).getD k default =
          redirect handler front (blocks.getD k default)) := by
  unfold redirectAll
  induction edges generalizing blocks with
  | nil => exact ⟨rfl, .inl rfl, by simp⟩
  | cons first rest ih =>
    rw [foldl_cons]
    cases from_ : first.source with
    | none =>
      obtain ⟨size, either, sources⟩ := ih blocks
      refine ⟨size, either, ?_⟩
      rintro ⟨e, member, source⟩ inside
      rcases mem_cons.mp member with rfl | later
      · rw [from_] at source
        cases source
      · exact sources ⟨e, later, source⟩ inside
    | some source =>
      obtain ⟨size, either, sources⟩ :=
        ih (blocks.modify source (redirect handler front))
      rw [getD_modify] at either sources
      refine ⟨by simpa using size, ?_, ?_⟩
      · split at either
        · rw [redirect_redirect other, or_self] at either
          exact .inr either
        · exact either
      · rintro ⟨e, member, comes⟩ inside
        by_cases here : k = source
        · rwa [if_pos ⟨here, here ▸ inside⟩, redirect_redirect other, or_self] at either
        · rw [if_neg fun same => here same.1] at sources
          refine sources ⟨e, ?_, comes⟩ (by simpa using inside)
          rcases mem_cons.mp member with rfl | later
          · rw [from_] at comes
            cases comes
            exact absurd rfl here
          · exact later

structure Split (handler : Nat) (blocks after : Array PlannedBlock) : Prop where
  size : after.size = blocks.size + 1
  front : after.getD blocks.size default =
    { label := .number blocks.size, start := 0, stop := 0, succs := [handler]
      preds := (blocks.getD handler default).preds.filter Edge.exceptional, isHandler := true
      leadsTo := some handler }
  itself : after.getD handler default =
    { redirect handler blocks.size (blocks.getD handler default) with
      preds := (blocks.getD handler default).preds.filter (fun p => !p.exceptional) ++
        [⟨some blocks.size, false⟩]
      isHandler := false }
  others : ∀ k < blocks.size, k ≠ handler →
    after.getD k default = redirect handler blocks.size (blocks.getD k default)

theorem splitHandler_eq (m : Method) (blocks : Array PlannedBlock) (handler : Nat) :
    splitHandler (m, blocks) handler =
      if !(blocks.getD handler default).isHandler ||
          ((blocks.getD handler default).preds.filter fun p => !p.exceptional).isEmpty then
        (m, blocks)
      else (m.newLabel.2, withFront m.newLabel.1 handler blocks) := rfl

section

variable (sound : Sound s blocks) (inside : handler < blocks.size)

include sound inside

/-- Redirecting the sources of the exceptional edges into a handler redirects all blocks: one that
throws to the handler is such a source. -/
theorem Sound.redirected
    (bound : k < blocks.size) :
    (redirectAll handler blocks.size
      ((blocks.getD handler default).preds.filter Edge.exceptional) blocks).getD k default =
    redirect handler blocks.size (blocks.getD k default) := by
  have sources := redirectAll_getD (Nat.ne_of_gt inside)
    ((blocks.getD handler default).preds.filter Edge.exceptional) blocks k
  by_cases throws : handler ∈ (blocks.getD k default).exSuccs
  · refine sources.2.2 ⟨⟨some k, true⟩, ?_, rfl⟩ bound
    exact mem_filter.mpr ⟨((sound.entered k bound).thrown handler throws).1, rfl⟩
  · rcases sources.2.1 with same | same
    · rw [same, redirect_of_not_mem throws]
    · exact same

theorem split_withFront :
    Split handler blocks (withFront (.number blocks.size) handler blocks) := by
  have size : (redirectAll handler blocks.size
      ((blocks.getD handler default).preds.filter Edge.exceptional) blocks).size = blocks.size :=
    (redirectAll_getD (Nat.ne_of_gt inside) _ blocks 0).1
  refine ⟨by rw [withFront, Array.size_push, Array.size_setIfInBounds, size], ?_, ?_, ?_⟩
  · simp only [withFront]
    rw [getD_push, if_pos (by rw [Array.size_setIfInBounds, size])]
  · simp only [withFront]
    rw [getD_push, if_neg (by rw [Array.size_setIfInBounds, size]; omega), getD_set, if_pos ⟨rfl, by omega⟩,
      sound.redirected inside inside]
    rfl
  · intro k bound other
    simp only [withFront]
    rw [getD_push, if_neg (by rw [Array.size_setIfInBounds, size]; omega), getD_set, if_neg fun same => other same.1,
      sound.redirected inside bound]

end

theorem splitHandler_cases (sound : Sound s blocks) (base : Method)
    (inside : handler < s.starts.length) :
    splitHandler (blank base blocks.size, blocks) handler = (blank base blocks.size, blocks) ∨
      (blocks.getD handler default).isHandler = true ∧
      ∃ after, splitHandler (blank base blocks.size, blocks) handler =
        (blank base after.size, after) ∧ Split handler blocks after := by
  have split := split_withFront sound (lt_of_lt_of_le inside sound.count)
  rw [splitHandler_eq, newLabel_blank]
  by_cases alone : (!(blocks.getD handler default).isHandler ||
      ((blocks.getD handler default).preds.filter fun p => !p.exceptional).isEmpty) = true
  · exact .inl (if_pos alone)
  · refine .inr ⟨?_, _, ?_, split⟩
    · simp only [Bool.or_eq_true, Bool.not_eq_true', not_or, Bool.not_eq_false] at alone
      exact alone.1
    · rw [if_neg alone, split.size]

theorem Split.leadsTo_eq (split : Split handler blocks after) (bound : k < blocks.size) :
    (after.getD k default).leadsTo = (blocks.getD k default).leadsTo := by
  by_cases same : k = handler
  · rw [same, split.itself]
    rfl
  · rw [split.others k bound same]
    rfl

theorem Split.landing_eq (split : Split handler blocks after) (sound : Sound s blocks)
    (handles : (blocks.getD handler default).isHandler = true) (h : Nat) :
    landing after h = if h = handler then blocks.size else landing blocks h := by
  split
  next same =>
    refine landing_of_first (by rw [split.size]; omega) (by rw [split.front, same]) ?_
    intro j before leads
    rw [split.leadsTo_eq before, same] at leads
    rw [sound.split j before handler leads] at handles
    cases handles
  next other =>
    rcases landing_cases blocks h with ⟨same, none⟩ | ⟨inside, leads, first⟩
    · rw [same]
      apply landing_of_none
      intro j bound leads
      rw [split.size] at bound
      rcases Nat.lt_succ_iff_lt_or_eq.mp bound with early | rfl
      · rw [split.leadsTo_eq early] at leads
        exact none j early leads
      · rw [split.front] at leads
        exact other (Option.some.inj leads).symm
    · refine landing_of_first (by rw [split.size]; omega) ?_ ?_
      · rw [split.leadsTo_eq inside, leads]
      · intro j before
        rw [split.leadsTo_eq (by omega)]
        exact first j before

theorem Sound.splitHandler (sound : Sound s blocks) (inside : handler < s.starts.length)
    (handles : (blocks.getD handler default).isHandler = true) (split : Split handler blocks after) :
    Sound s after := by
  have count := sound.count
  have known : handler < blocks.size := Nat.lt_of_lt_of_le inside count
  -- Apart from its ways in, an old block only throws elsewhere.
  have old : ∀ k < blocks.size,
      (after.getD k default).label = (blocks.getD k default).label ∧
      (after.getD k default).start = (blocks.getD k default).start ∧
      (after.getD k default).stop = (blocks.getD k default).stop ∧
      (after.getD k default).succs = (blocks.getD k default).succs ∧
      (after.getD k default).leadsTo = (blocks.getD k default).leadsTo ∧
      (after.getD k default).exSuccs = (redirect handler blocks.size (blocks.getD k default)).exSuccs
      := by
    intro k bound
    by_cases same : k = handler
    · rw [same, split.itself]
      exact ⟨rfl, rfl, rfl, rfl, rfl, rfl⟩
    · rw [split.others k bound same]
      exact ⟨rfl, rfl, rfl, rfl, rfl, rfl⟩
  refine ⟨by rw [split.size]; omega, ?_, ?_, ?_, ?_, ?_, ?_, ?_, ?_, ?_, ?_⟩
  · intro k bound
    rw [split.size] at bound
    rcases Nat.lt_succ_iff_lt_or_eq.mp bound with early | rfl
    · rw [(old k early).1, sound.label k early]
    · rw [split.front]
  · intro k bound
    rw [(old k (by omega)).2.1, sound.start k bound]
  · intro k bound
    rw [(old k (by omega)).2.2.1, sound.stop k bound]
  · intro k bound
    rw [(old k (by omega)).2.2.2.1, sound.succs k bound]
  · intro k bound
    rw [(old k (by omega)).2.2.2.2.1, sound.leadsTo k bound]
  · intro k bound late
    rw [split.size] at bound
    rcases Nat.lt_succ_iff_lt_or_eq.mp bound with early | rfl
    · obtain ⟨h, insideH, leads, succs, thrown⟩ := sound.front k early late
      refine ⟨h, insideH, ?_, ?_, ?_⟩
      · rw [(old k early).2.2.2.2.1, leads]
      · rw [(old k early).2.2.2.1, succs]
      · rw [(old k early).2.2.2.2.2, redirect, thrown]
        rfl
    · rw [split.front]
      exact ⟨handler, inside, rfl, rfl, rfl⟩
  · intro k bound
    rw [(old k (by omega)).2.2.2.2.2, redirect, sound.thrown k bound, map_map]
    apply map_congr_left
    intro t target
    dsimp only [Function.comp]
    rw [split.landing_eq sound handles]
    by_cases here : t = handler
    · rw [here, sound.landing_of_isHandler handles]
    · rw [if_neg here, if_neg]
      rcases sound.landing_eq_or_le t with same | late
      · rwa [same]
      · omega
  · intro k bound
    rw [split.size] at bound
    rcases Nat.lt_succ_iff_lt_or_eq.mp bound with early | rfl
    · refine ⟨?_, ?_⟩
      · intro t target
        rw [(old k early).2.2.2.1] at target
        have before := (sound.entered k early).normal t target
        by_cases here : t = handler
        · rw [here, split.itself]
          exact mem_append_left _ (mem_filter.mpr ⟨here ▸ before, rfl⟩)
        · rwa [split.others t (sound.mem_lt early (.inl target)) here]
      · intro t target
        rw [(old k early).2.2.2.2.2] at target
        obtain ⟨u, thrown, rfl⟩ := mem_map.mp target
        have before := (sound.entered k early).thrown u thrown
        by_cases here : u = handler
        · rw [if_pos here, split.front]
          exact ⟨mem_filter.mpr ⟨here ▸ before.1, rfl⟩, rfl⟩
        · rwa [if_neg here, split.others u (sound.mem_lt early (.inr thrown)) here]
    · refine ⟨?_, ?_⟩
      · intro t target
        rw [split.front] at target
        rw [mem_singleton.mp target, split.itself]
        exact mem_append_right _ (mem_singleton.mpr rfl)
      · intro t target
        rw [split.front] at target
        cases target
  · by_cases zero : handler = 0
    · subst zero
      rw [split.itself]
      exact mem_append_left _ (mem_filter.mpr ⟨sound.entry, rfl⟩)
    · rw [split.others 0 (by omega) (Ne.symm zero)]
      exact sound.entry
  · intro k bound h leads
    by_cases here : h = handler
    · rw [here, split.itself]
    · rw [split.size] at bound
      rcases Nat.lt_succ_iff_lt_or_eq.mp bound with early | rfl
      · rw [(old k early).2.2.2.2.1] at leads
        have before := sound.split k early h leads
        by_cases known : h < blocks.size
        · rw [split.others h known here, ← before]
          rfl
        · obtain ⟨other, small, same, -⟩ := sound.front k early (by
            by_contra small
            rw [sound.leadsTo k (by omega)] at leads
            cases leads)
          rw [leads] at same
          cases same
          omega
      · rw [split.front] at leads
        exact absurd (Option.some.inj leads).symm here

theorem sound_of_opened
    (opened : OpenedAll ((List.range s.starts.length).map (initial s)).toArray blocks)
    (entered : ∀ k < s.starts.length, Entered blocks k)
    (entry : ⟨none, false⟩ ∈ (blocks.getD 0 default).preds) : Sound s blocks := by
  have size : blocks.size = s.starts.length := by simpa using opened.1
  have each : ∀ k < s.starts.length, Opened (initial s k) (blocks.getD k default) := by
    intro k bound
    have here := opened.2 k
    rwa [show ((List.range s.starts.length).map (initial s)).toArray.getD k default = initial s k by
      simp [bound]] at here
  have leads : ∀ k < blocks.size, (blocks.getD k default).leadsTo = none := by
    intro k bound
    rw [(each k (by omega)).leadsTo]
    rfl
  refine ⟨by omega, ?_, ?_, ?_, ?_, ?_, ?_, ?_, ?_, entry, ?_⟩
  · intro k bound
    rw [(each k (by omega)).label]
    rfl
  · intro k bound
    rw [(each k bound).start]
    rfl
  · intro k bound
    rw [(each k bound).stop]
    rfl
  · intro k bound
    rw [(each k bound).succs]
  · intro k bound
    exact leads k (by omega)
  · intro k bound late
    omega
  · intro k bound
    rw [(each k bound).exSuccs]
    conv_lhs => rw [← map_id (initial s k).exSuccs]
    apply map_congr_left
    intro h _
    refine (landing_of_none ?_).symm
    intro j inside same
    rw [leads j inside] at same
    cases same
  · intro k bound
    exact entered k (by omega)
  · intro k bound h same
    rw [leads k bound] at same
    cases same

theorem splitHandlers (base : Method) (handlers : List Nat)
    (inside : ∀ h ∈ handlers, h < s.starts.length) (sound : Sound s blocks) :
    ∃ after, handlers.foldl splitHandler (blank base blocks.size, blocks) =
      (blank base after.size, after) ∧ Sound s after := by
  induction handlers generalizing blocks with
  | nil => exact ⟨blocks, rfl, sound⟩
  | cons first rest ih =>
    have bounds : ∀ h ∈ rest, h < s.starts.length :=
      fun h member => inside h (.tail _ member)
    rw [foldl_cons]
    rcases splitHandler_cases sound base (inside first (by simp)) with
      same | ⟨handles, after, equal, split⟩
    · rw [same]
      exact ih bounds sound
    · rw [equal]
      exact ih bounds (sound.splitHandler (inside first (by simp)) handles split)

def initialBlocks (s : Source) : Array PlannedBlock :=
  ((List.range s.starts.length).map (initial s)).toArray

/-- The blocks with their edges entered, before handlers are split. -/
def enteredBlocks (s : Source) : Array PlannedBlock :=
  ((List.range s.starts.length).foldl enterPreds (initialBlocks s)).modify 0
    fun b => { b with preds := b.preds ++ [⟨none, false⟩] }

section

variable (nonempty : 0 < s.starts.length)

include nonempty

theorem initialBlocks_closed (k : Nat) :
    ∀ t ∈ ((initialBlocks s).getD k default).succs ++ ((initialBlocks s).getD k default).exSuccs,
      t < (initialBlocks s).size := by
  intro t target
  by_cases bound : k < s.starts.length
  · rw [show (initialBlocks s).getD k default = initial s k by simp [initialBlocks, bound]] at target
    simp only [initialBlocks, size_toArray, length_map, length_range]
    rcases mem_append.mp target with normal | thrown
    · exact normalSuccs_lt nonempty normal
    · exact thrownSuccs_lt nonempty thrown
  · rw [show (initialBlocks s).getD k default = default by
      simp [initialBlocks, Nat.not_lt.mp bound]] at target
    cases target

theorem openedAll_enteredBlocks : OpenedAll (initialBlocks s) (enteredBlocks s) :=
  (enterAll (List.range s.starts.length) (initialBlocks_closed nonempty)).1.trans
    (openedAll_modify (opened_enter ⟨none, false⟩) 0 _)

theorem size_enteredBlocks : (enteredBlocks s).size = s.starts.length := by
  rw [(openedAll_enteredBlocks nonempty).1]
  simp [initialBlocks]

theorem sound_enteredBlocks : Sound s (enteredBlocks s) := by
  obtain ⟨opened, entered⟩ :=
    enterAll (List.range s.starts.length) (initialBlocks_closed nonempty)
  refine sound_of_opened (openedAll_enteredBlocks nonempty) ?_ ?_
  · intro k bound
    exact (entered k (mem_range.mpr bound)).opened
      (openedAll_modify (opened_enter ⟨none, false⟩) 0 _)
  · rw [enteredBlocks, getD_modify, if_pos]
    · exact mem_append_right _ (mem_singleton.mpr rfl)
    · rw [opened.1]
      simpa [initialBlocks] using nonempty

end

/-- What is known about the plan of some code, and about the method its labels are made in.
Control does not run off the end. -/
structure Made (base : Method) (code : Dex.Code) (m : Method) (p : Plan) : Prop where
  source : p.source = .ofCode code
  starts : p.starts = p.source.starts
  handlers : p.source.strayHandler? = none
  nonempty : 0 < p.starts.length
  sound : Sound p.source p.blocks
  stays : ∀ k ∈ reversePostorder (initialBlocks p.source), k + 1 = p.starts.length →
    (p.source.at_ (p.source.stopOf k - 1)).op.flow.continues = false
  method : m = blank base p.blocks.size

theorem made_of_make {base : Method} (fresh : base.placed = #[]) {code : Dex.Code} {m : Method}
    {p : Plan} (nonempty : code.instructions ≠ []) (made : make base code = .ok (m, p)) :
    Made base code m p := by
  have bare : blank base 0 = base := by
    rw [blank, Array.replicate_zero, ← fresh]
  have begins : 0 < (Source.ofCode code).starts.length := by
    have some : 0 < (Source.ofCode code).instructions.size := by
      simpa [Source.ofCode] using length_pos_iff.mpr nonempty
    exact length_pos_of_mem ((Source.ofCode code).mem_starts.mpr ⟨some, .inl rfl⟩)
  have fold := addBlocks (.ofCode code) base
  rw [bare] at fold
  delta addBlock places at fold
  unfold make at made
  dsimp only at made fold
  split at made
  · cases made
  · cases made
  next handlers unassigned =>
    rw [fold] at made
    dsimp only at made
    split at made
    · cases made
    next stays =>
      obtain ⟨after, equal, sound⟩ := splitHandlers base
        (List.range (Source.ofCode code).starts.length) (fun h => mem_range.mp)
        (sound_enteredBlocks begins)
      rw [size_enteredBlocks begins] at equal
      simp only [size_toArray, length_map, length_range] at made
      rw [enteredBlocks, initialBlocks] at equal
      rw [equal] at made
      cases made
      refine ⟨rfl, rfl, handlers, begins, sound, ?_, rfl⟩
      intro k reached last
      have here := find?_eq_none.mp stays k reached
      have inside : k < (Source.ofCode code).starts.length := Nat.lt_of_succ_le (le_of_eq last)
      have block : (initialBlocks (.ofCode code)).getD k default = initial (.ofCode code) k := by
        simp [initialBlocks, inside]
      rw [initialBlocks] at block
      rw [block] at here
      simpa [last, initial] using here

end Plan

end DexLift.Lower
