import DexLift.Proofs.Dalvik.Addresses
import DexLift.Proofs.Ir.Places
import DexLift.Proofs.Lower.Layout
import Mathlib.Data.List.Flatten

/-!
# Positions in a lowered method

Where the blocks of a lowered method stand, which labels open blocks, and which
positions its traps cover. A position inside a block is covered by the traps of a
try exactly when the try covers the instruction that the block begins with, given
that addresses ascend and tries begin and end with instructions.
-/

namespace DexLift.Lower

open Ir Dalvik List Source Shape Plan

/-! ## Where blocks stand -/

variable {xs : List Nat} {k i index : Nat} {t : Trapped} {holds : Action → Prop} {a : Action}
  {e : Edge}

theorem split_of_sorted (sorted : xs.Pairwise (· < ·)) (member : k ∈ xs) :
    xs = xs.filter (fun j => decide (j < k)) ++ k :: xs.filter (fun j => decide (k < j)) := by
  induction xs with
  | nil => cases member
  | cons x rest ih =>
    obtain ⟨less, restSorted⟩ := pairwise_cons.mp sorted
    rcases mem_cons.mp member with rfl | later
    · have none : rest.filter (fun j => decide (j < k)) = [] :=
        filter_eq_nil_iff.mpr fun j inside => by simpa using le_of_lt (less j inside)
      have all : rest.filter (fun j => decide (k < j)) = rest :=
        filter_eq_self.mpr fun j inside => by simpa using less j inside
      rw [filter_cons_of_neg (by simp), filter_cons_of_neg (by simp), none, all, nil_append]
    · have early := less k later
      rw [filter_cons_of_pos (by simpa using early),
        filter_cons_of_neg (by simpa using le_of_lt early), cons_append,
        ← ih restSorted later]

theorem layout_sorted (plan : Plan) (done : Progress) : (layout plan done).Pairwise (· < ·) :=
  pairwise_lt_range.filter _

namespace Shape

variable (s : Shape)

/-- The position where a block begins, with the labels of traps. -/
def base (k : Nat) : Nat :=
  s.opening.length + 1 + ((s.layout.filter (fun j => decide (j < k))).flatMap s.segment).length

/-- The position of the label of a block. -/
def header (k : Nat) : Nat := s.base k + (startsAt s.trapped k).length

def bodyAt (k : Nat) : Nat := s.header k + 1 + (s.piece k).joins.length

/-- The position behind the statements of a block. -/
def stopAt (k : Nat) : Nat := s.bodyAt k + (s.piece k).body.length

/-- What stands behind a block. -/
def tail (k : Nat) : List Action := (s.layout.filter (fun j => decide (k < j))).flatMap s.segment

/-- What stands behind the statements of a block. -/
def after (k : Nat) : List Action := labelled (stopsAt s.trapped k) ++ s.tail k

def fromHeader (k : Nat) : List Action :=
  .label (.number k) :: ((s.piece k).joins.map (s.phi k) ++ ((s.piece k).body ++ s.after k))

theorem segment_append_tail (k : Nat) :
    s.segment k ++ s.tail k = labelled (startsAt s.trapped k) ++ s.fromHeader k := by
  simp [segment, fromHeader, after, labelled]

/-- The positions of a block, from behind its label to the end of its statements. -/
def Within (k position : Nat) : Prop :=
  s.header k < position ∧ position < s.stopAt k

theorem length_le_base {j : Nat} (first : j ∈ s.layout) (less : j < k) :
    s.base j + (s.segment j).length ≤ s.base k := by
  have sorted := layout_sorted s.plan s.done
  have before : ((s.layout.filter fun i => decide (i < j)) ++ [j]).Sublist
      (s.layout.filter fun i => decide (i < k)) := by
    have split := split_of_sorted sorted first
    have part : ((s.layout.filter fun i => decide (i < j)) ++ [j]).Sublist s.layout := by
      conv => rhs; rw [show s.layout = _ from split]
      exact List.Sublist.append_left (singleton_sublist.mpr mem_cons_self) _
    have kept : ((s.layout.filter fun i => decide (i < j)) ++ [j]).filter
        (fun i => decide (i < k)) = (s.layout.filter fun i => decide (i < j)) ++ [j] := by
      refine filter_eq_self.mpr fun i inside => ?_
      rcases mem_append.mp inside with early | own
      · have := (mem_filter.mp early).2
        simp only [decide_eq_true_eq] at this ⊢
        omega
      · rw [mem_singleton.mp own]
        simpa using less
    rw [← kept]
    exact part.filter _
  have lengths := (before.flatMap s.segment).length_le
  rw [flatMap_append, flatMap_singleton, length_append] at lengths
  unfold base
  omega

theorem tail_eq (next : k + 1 ∈ s.layout) :
    s.tail k = labelled (startsAt s.trapped (k + 1)) ++ s.fromHeader (k + 1) := by
  have split := split_of_sorted (layout_sorted s.plan s.done) next
  have later : s.layout.filter (fun j => decide (k < j)) =
      (k + 1) :: s.layout.filter (fun j => decide (k + 1 < j)) := by
    conv => lhs; rw [show s.layout = _ from split]
    rw [filter_append, filter_filter, filter_cons_of_pos (by simp), filter_filter]
    have none : (Lower.layout s.plan s.done).filter
        (fun j => decide (k < j) && decide (j < k + 1)) = [] :=
      filter_eq_nil_iff.mpr fun j _ => by
        simp only [Bool.and_eq_true, decide_eq_true_eq]
        omega
    have same : ∀ j ∈ Lower.layout s.plan s.done,
        (decide (k < j) && decide (k + 1 < j)) = decide (k + 1 < j) := by grind
    rw [none, filter_congr same, nil_append]
    rfl
  rw [tail, later, flatMap_cons, ← s.segment_append_tail]
  rfl

theorem base_zero : s.base 0 = s.opening.length + 1 := by
  have none : s.layout.filter (fun j => decide (j < 0)) = [] :=
    filter_eq_nil_iff.mpr fun j _ => by simp
  rw [base, none]
  rfl

theorem length_segment (k : Nat) :
    s.base k + (s.segment k).length = s.stopAt k + (stopsAt s.trapped k).length := by
  simp [segment, stopAt, bodyAt, header, labelled]
  omega

end Shape

variable {file : Dex.File} {ref : MethodRef} {isStatic : Bool} {code : Dex.Code} {m : Ir.Method}
  {s : Shape}

namespace Lowered

variable (lowered : Lowered file ref isStatic code m s)

include lowered

section

variable (member : k ∈ s.layout)

include member

theorem from_base : m.From (s.base k) (labelled (startsAt s.trapped k) ++ s.fromHeader k) := by
  have split := split_of_sorted (layout_sorted s.plan s.done) member
  have parts : m.actions =
      (.label (.number s.plan.blocks.size) :: s.opening ++
        (s.layout.filter (fun j => decide (j < k))).flatMap s.segment) ++
        (s.segment k ++ s.tail k) := by
    rw [lowered.actions]
    conv => lhs; rw [show s.layout = _ from split]
    rw [flatMap_append, flatMap_cons, append_assoc]
    rfl
  have here := Ir.Method.from_of_append parts
  rw [s.segment_append_tail] at here
  have length : (.label (.number s.plan.blocks.size) :: s.opening ++
      (s.layout.filter (fun j => decide (j < k))).flatMap s.segment).length = s.base k := by
    rw [base, length_append, length_cons]
  rwa [length] at here

theorem from_header : m.From (s.header k) (s.fromHeader k) := by
  have here := (lowered.from_base member).skip
  rwa [labelled, length_map] at here

theorem from_body : m.From (s.bodyAt k) ((s.piece k).body ++ s.after k) := by
  have here := (lowered.from_header member).next.skip
  rwa [length_map] at here

theorem find_header : m.find? (.number k) = some (s.header k) :=
  lowered.tidy.find?_eq_some.mpr (lowered.from_header member).get

end

theorem mem_insideOf {t : Dex.Try} :
    k ∈ insideOf s.plan s.done t ↔ k ∈ s.layout ∧ k < s.plan.source.starts.length ∧
      covers t (s.plan.source.at_ (s.plan.source.startOf k)).addr = true := by
  rw [insideOf, mem_filter, Shape.layout, layout, mem_filter, mem_range]
  constructor
  · rintro ⟨inside, begins⟩
    simp only [beginsIn, Bool.and_eq_true] at begins
    obtain ⟨⟨own, reached⟩, covers⟩ := begins
    have early : k < s.plan.source.starts.length := by
      by_contra late
      have leads := (leadsTo_isSome_iff lowered.sound inside).mpr (Nat.le_of_not_lt late)
      rw [Option.isNone_iff_eq_none] at own
      rw [own] at leads
      cases leads
    rw [block, lowered.sound.start k early] at covers
    exact ⟨⟨inside, reached⟩, early, covers⟩
  · rintro ⟨⟨inside, reached⟩, early, covers⟩
    refine ⟨inside, ?_⟩
    simp only [beginsIn, Bool.and_eq_true]
    refine ⟨⟨?_, reached⟩, ?_⟩
    · rw [block, lowered.sound.leadsTo k early]
      rfl
    · rwa [block, lowered.sound.start k early]

section

variable (member : t ∈ s.trapped)

include member

theorem find_start :
    t.first ∈ insideOf s.plan s.done t.source ∧
      ∃ position, m.find? (.number t.start) = some position ∧ s.base t.first ≤ position ∧
        position < s.header t.first := by
  have inside := mem_of_mem_head? (lowered.bounds t member).1
  refine ⟨inside, ?_⟩
  have listed : t.start ∈ startsAt s.trapped t.first :=
    mem_map.mpr ⟨t, mem_filter.mpr ⟨member, by simp⟩, rfl⟩
  obtain ⟨before, behind, split⟩ := append_of_mem listed
  have here := lowered.from_base (lowered.mem_insideOf.mp inside).1
  rw [split, labelled, map_append, map_cons, append_assoc] at here
  refine ⟨_, lowered.tidy.find?_eq_some.mpr here.skip.get, Nat.le_add_right _ _, ?_⟩
  rw [header, split, length_map, length_append, length_cons]
  omega

theorem find_stop :
    t.last ∈ insideOf s.plan s.done t.source ∧
      ∃ position, m.find? (.number t.stop) = some position ∧ s.stopAt t.last ≤ position ∧
        position < s.base t.last + (s.segment t.last).length := by
  have inside := mem_of_getLast? (lowered.bounds t member).2
  refine ⟨inside, ?_⟩
  have listed : t.stop ∈ stopsAt s.trapped t.last :=
    mem_map.mpr ⟨t, mem_filter.mpr ⟨member, by simp⟩, rfl⟩
  obtain ⟨before, behind, split⟩ := append_of_mem listed
  have here := (lowered.from_body (lowered.mem_insideOf.mp inside).1).skip
  rw [Shape.after, split, labelled, map_append, map_cons, append_assoc] at here
  refine ⟨_, lowered.tidy.find?_eq_some.mpr here.skip.get, Nat.le_add_right _ _, ?_⟩
  rw [s.length_segment, split, length_map, length_append, length_cons]
  unfold Shape.stopAt
  omega

theorem covered_iff {position : Nat} (listed : k ∈ s.layout)
    (within : s.Within k position) (handler : Label) (type : Text) :
    m.covered ⟨.number t.start, .number t.stop, handler, type⟩ position = true ↔
      t.first ≤ k ∧ k ≤ t.last := by
  obtain ⟨firstInside, start, findStart, startLow, startHigh⟩ := lowered.find_start member
  obtain ⟨lastInside, stop, findStop, stopLow, stopHigh⟩ := lowered.find_stop member
  have first := (lowered.mem_insideOf.mp firstInside).1
  have last := (lowered.mem_insideOf.mp lastInside).1
  obtain ⟨after, before⟩ := within
  have length := s.length_segment k
  have lengthFirst := s.length_segment t.first
  have headerLe : ∀ j, s.base j ≤ s.header j ∧ s.header j ≤ s.stopAt j := by
    intro j
    unfold stopAt bodyAt header
    omega
  have := headerLe k
  have := headerLe t.first
  have := headerLe t.last
  simp only [Ir.Method.covered, findStart, findStop, Bool.and_eq_true, decide_eq_true_eq]
  constructor
  · rintro ⟨behindStart, beforeStop⟩
    constructor
    · by_contra late
      have := s.length_le_base listed (Nat.lt_of_not_le late)
      omega
    · by_contra late
      have := s.length_le_base last (Nat.lt_of_not_le late)
      omega
  · rintro ⟨fromFirst, toLast⟩
    constructor
    · rcases Nat.lt_or_eq_of_le fromFirst with less | same
      · have := s.length_le_base first less
        omega
      · rw [same] at startHigh
        omega
    · rcases Nat.lt_or_eq_of_le toLast with less | same
      · have := s.length_le_base listed less
        omega
      · rw [← same] at stopLow
        omega

end

end Lowered

/-! ## Tries -/

/-- An address is that of an instruction, or lies behind all of them. -/
def OnBoundary (source : Source) (addr : UInt32) : Prop :=
  (∃ i < source.instructions.size, (source.at_ i).addr = addr) ∨
    ∀ i < source.instructions.size, (source.at_ i).addr < addr

structure WellPlaced (source : Source) : Prop where
  ascending : ∀ i j, i < j → j < source.instructions.size →
    (source.at_ i).addr < (source.at_ j).addr
  bounds : ∀ t ∈ source.tries, OnBoundary source t.start ∧ OnBoundary source t.stop

namespace WellPlaced

variable {source : Source} (placed : WellPlaced source)

include placed

theorem addr_le {j : Nat} (le : i ≤ j) (inside : j < source.instructions.size) :
    (source.at_ i).addr ≤ (source.at_ j).addr := by
  rcases Nat.lt_or_eq_of_le le with less | rfl
  · exact UInt32.le_of_lt (placed.ascending i j less inside)
  · exact UInt32.le_refl _

theorem le_of_addr_le {j : Nat} (inside : i < source.instructions.size)
    (le : (source.at_ i).addr ≤ (source.at_ j).addr) : i ≤ j := by
  by_contra late
  exact UInt32.not_le.mpr (placed.ascending j i (Nat.lt_of_not_le late) inside) le

theorem indexOf_addr (inside : i < source.instructions.size) :
    source.indexOf? (source.at_ i).addr = some i := by
  have at_eq : ∀ j (bound : j < source.instructions.size), source.instructions[j] = source.at_ j := by
    intro j bound
    simp [at_, bound]
  refine Array.findIdx?_eq_some_iff_getElem.mpr ⟨inside, ?_, ?_⟩
  · rw [at_eq i inside]
    simp
  · intro j early
    rw [at_eq j (lt_trans early inside)]
    have less := placed.ascending j i early inside
    simp only [beq_iff_eq]
    intro same
    rw [same] at less
    exact UInt32.lt_irrefl _ less

theorem mem_starts_of_bound {t : Dex.Try} (member : t ∈ source.tries)
    (inside : i < source.instructions.size)
    (bound : (source.at_ i).addr = t.start ∨ (source.at_ i).addr = t.stop) : i ∈ source.starts := by
  refine source.mem_starts.mpr ⟨inside, .inr (.inl ?_)⟩
  refine mem_flatMap.mpr ⟨t, member, mem_filterMap.mpr ⟨(source.at_ i).addr, ?_, ?_⟩⟩
  · rcases bound with start | stop
    · simp [start]
    · simp [stop]
  · exact placed.indexOf_addr inside

theorem covers_iff {t : Dex.Try} (member : t ∈ source.tries) (known : k < source.starts.length)
    (after : source.startOf k ≤ index) (before : index < source.stopOf k) :
    covers t (source.at_ index).addr = true ↔
      covers t (source.at_ (source.startOf k)).addr = true := by
  have inside : index < source.instructions.size := Nat.lt_of_lt_of_le before stopOf_le
  have monotone := placed.addr_le after inside
  -- A bound inside the block would begin another one.
  have outside : ∀ i ∈ source.starts, i ≤ index → i ≤ source.startOf k := by
    intro i start le
    by_contra late
    exact not_start_between known (Nat.lt_of_not_le late) (Nat.lt_of_le_of_lt le before) start
  obtain ⟨startBound, stopBound⟩ := placed.bounds t member
  simp only [covers, Bool.and_eq_true, decide_eq_true_eq]
  constructor
  · rintro ⟨low, high⟩
    refine ⟨?_, UInt32.lt_of_le_of_lt monotone high⟩
    rcases startBound with ⟨i, bound, addr⟩ | behind
    · have start := placed.mem_starts_of_bound member bound (.inl addr)
      have le := outside i start (placed.le_of_addr_le bound (by rwa [addr]))
      rw [← addr]
      exact placed.addr_le le (Nat.lt_of_le_of_lt after inside)
    · exact absurd (behind index inside) (UInt32.not_lt.mpr low)
  · rintro ⟨low, high⟩
    refine ⟨UInt32.le_trans low monotone, ?_⟩
    rcases stopBound with ⟨i, bound, addr⟩ | behind
    · have start := placed.mem_starts_of_bound member bound (.inr addr)
      by_contra beyond
      have le := outside i start (placed.le_of_addr_le bound
        (by rw [addr]; exact UInt32.not_lt.mp beyond))
      have addrLe := placed.addr_le le (Nat.lt_of_le_of_lt after inside)
      rw [addr] at addrLe
      exact UInt32.not_le.mpr high addrLe
    · exact behind index inside

end WellPlaced

theorem head_le (sorted : xs.Pairwise (· < ·)) {first x : Nat} (head : xs.head? = some first)
    (member : x ∈ xs) : first ≤ x := by
  cases xs with
  | nil => cases head
  | cons y rest =>
    cases head
    rcases mem_cons.mp member with rfl | later
    · exact le_rfl
    · exact le_of_lt ((pairwise_cons.mp sorted).1 x later)

theorem le_getLast (sorted : xs.Pairwise (· < ·)) {last x : Nat} (ending : xs.getLast? = some last)
    (member : x ∈ xs) : x ≤ last := by
  obtain ⟨before, split⟩ := getLast?_eq_some_iff.mp ending
  rw [split] at sorted member
  rcases mem_append.mp member with early | own
  · exact le_of_lt ((pairwise_append.mp sorted).2.2 x early last (by simp))
  · exact le_of_eq (mem_singleton.mp own)

theorem meaning_of_isMoveResult (op : Dex.Opcode) (moves : op.isMoveResult = true) :
    meaning op = .moveResult := by
  have all : ∀ code : Fin 256, (⟨⟨⟨code⟩⟩⟩ : Dex.Opcode).isMoveResult = true →
      meaning ⟨⟨⟨code⟩⟩⟩ = .moveResult := by decide +kernel
  exact all op.code.toFin moves

theorem throwingIn_eq {source : Source} (known : k < source.starts.length)
    (after : source.startOf k ≤ index) (before : index < source.stopOf k)
    (throws : (source.at_ index).op.flow.throws = true)
    (tried : source.inTry (source.at_ index).addr = true) :
    source.throwingIn? (source.startOf k) (source.stopOf k) = some index := by
  have inside : index < source.instructions.size := Nat.lt_of_lt_of_le before stopOf_le
  have leader : ∀ next, (if source.pairsWithResult index then index + 2 else index + 1) = next →
      source.stopOf k ≤ next := by
    intro next here
    by_contra early
    refine not_start_between known ?_ (Nat.lt_of_not_le early) ?_
    · rw [← here]
      split <;> omega
    · refine source.mem_starts.mpr ⟨Nat.lt_of_lt_of_le (Nat.lt_of_not_le early) stopOf_le,
        .inr (.inr ⟨index, inside, ?_⟩)⟩
      simp [leadersOf, throws, tried, here]
  have others : ∀ j, index < j → j < source.stopOf k →
      (source.at_ j).op.flow.throws = false := by
    intro j later bound
    cases pairs : source.pairsWithResult index with
    | false =>
      have := leader (index + 1) (by simp [pairs])
      omega
    | true =>
      have := leader (index + 2) (by simp [pairs])
      have same : j = index + 1 := by omega
      have moves : (source.at_ (index + 1)).op.isMoveResult = true := by
        simp only [pairsWithResult, Bool.and_eq_true] at pairs
        exact pairs.2
      have means := meaning_of_isMoveResult _ moves
      rw [same, flow_of_meaning _ (by rw [means]; simp), means]
      rfl
  have parts : (List.range' (source.startOf k) (source.stopOf k - source.startOf k)).reverse =
      (List.range' (index + 1) (source.stopOf k - (index + 1))).reverse ++
        index :: (List.range' (source.startOf k) (index - source.startOf k)).reverse := by
    have first := @range'_append_1 (source.startOf k) (index - source.startOf k)
      (source.stopOf k - index)
    rw [Nat.add_sub_of_le after, show index - source.startOf k + (source.stopOf k - index) =
      source.stopOf k - source.startOf k by omega] at first
    have second : List.range' index (source.stopOf k - index) =
        index :: List.range' (index + 1) (source.stopOf k - (index + 1)) := by
      rw [show source.stopOf k - index = source.stopOf k - (index + 1) + 1 by omega,
        range'_succ]
    rw [← first, second, reverse_append, reverse_cons, append_assoc]
    rfl
  unfold throwingIn?
  rw [parts, find?_append, find?_eq_none.mpr, Option.none_or]
  · exact find?_cons_of_pos throws
  · intro j member
    obtain ⟨low, high⟩ := mem_range'_1.mp (mem_reverse.mp member)
    simp [others j (by omega) (by omega)]

namespace Lowered

variable (lowered : Lowered file ref isStatic code m s) (placed : WellPlaced s.plan.source)

include lowered placed

theorem covered_iff_covers (member : t ∈ s.trapped) {position : Nat} (listed : k ∈ s.layout)
    (known : k < s.plan.source.starts.length) (within : s.Within k position)
    (after : s.plan.source.startOf k ≤ index) (before : index < s.plan.source.stopOf k)
    (handler : Label) (type : Text) :
    m.covered ⟨.number t.start, .number t.stop, handler, type⟩ position = true ↔
      covers t.source (s.plan.source.at_ index).addr = true := by
  have tried : t.source ∈ s.plan.source.tries := by
    have source := mem_map_of_mem (f := Trapped.source) member
    rw [lowered.sources] at source
    exact mem_of_mem_filter source
  have sorted : (insideOf s.plan s.done t.source).Pairwise (· < ·) :=
    pairwise_lt_range.filter _
  obtain ⟨head, ending⟩ := lowered.bounds t member
  obtain ⟨-, firstKnown, firstCovers⟩ :=
    lowered.mem_insideOf.mp (mem_of_mem_head? head)
  obtain ⟨-, lastKnown, lastCovers⟩ := lowered.mem_insideOf.mp (mem_of_getLast? ending)
  rw [lowered.covered_iff member listed within, placed.covers_iff tried known after before]
  constructor
  · rintro ⟨fromFirst, toLast⟩
    have startLe : ∀ {i j}, i ≤ j → j < s.plan.source.starts.length →
        s.plan.source.startOf i ≤ s.plan.source.startOf j := by
      intro i j le bound
      rcases Nat.lt_or_eq_of_le le with less | rfl
      · exact le_of_lt (startOf_lt less bound)
      · exact le_rfl
    have startIn : ∀ {i}, i < s.plan.source.starts.length →
        s.plan.source.startOf i < s.plan.source.instructions.size :=
      fun bound => lt_of_lt_of_le (startOf_lt_stopOf bound) stopOf_le
    simp only [covers, Bool.and_eq_true, decide_eq_true_eq] at firstCovers lastCovers ⊢
    exact ⟨UInt32.le_trans firstCovers.1 (placed.addr_le (startLe fromFirst known) (startIn known)),
      UInt32.lt_of_le_of_lt (placed.addr_le (startLe toLast lastKnown) (startIn lastKnown))
        lastCovers.2⟩
  · intro covers
    have inside : k ∈ insideOf s.plan s.done t.source :=
      lowered.mem_insideOf.mpr ⟨listed, known, covers⟩
    exact ⟨head_le sorted head inside, le_getLast sorted ending inside⟩

omit placed in
theorem landing_mem (known : k < s.plan.source.starts.length)
    (after : s.plan.source.startOf k ≤ index) (before : index < s.plan.source.stopOf k)
    (throws : (s.plan.source.at_ index).op.flow.throws = true) {h : Dex.Handler}
    (handles : h ∈ handlersAt s.plan.source (s.plan.source.at_ index).addr) :
    landing s.plan.blocks (blockOf s.plan.source s.plan.starts h.addr) ∈
      (s.plan.block k).exSuccs := by
  have tried : s.plan.source.inTry (s.plan.source.at_ index).addr = true := by
    obtain ⟨t, member, -⟩ := mem_flatMap.mp handles
    obtain ⟨inTries, covers⟩ := mem_filter.mp member
    exact any_eq_true.mpr ⟨t, inTries, covers⟩
  rw [block, lowered.sound.thrown k known, lowered.starts]
  refine mem_map_of_mem ?_
  exact mem_thrownSuccs.mpr
    ⟨index, throwingIn_eq known after before throws tried, h, handles, rfl⟩

end Lowered

/-! ## Labels that open blocks -/

theorem phiStep_labelled (numbers : List Nat) (state : Label × List Label) :
    ((labelled numbers).foldl phiStep state).2 = state.2 := by
  induction numbers generalizing state with
  | nil => rfl
  | cons index rest ih =>
    obtain ⟨current, found⟩ := state
    rw [labelled, map_cons, foldl_cons]
    exact ih _

theorem phiStep_joins (joins : List Action) (joined : ∀ a ∈ joins, a.isPhi = true)
    (found : List Label) :
    ∃ more, joins.foldl phiStep (.number k, found) = (.number k, more) ∧
      (∀ l ∈ found, l ∈ more) ∧ (∀ l ∈ more, l ∈ found ∨ l = .number k) ∧
      (joins ≠ [] → .number k ∈ more) := by
  induction joins generalizing found with
  | nil => exact ⟨found, rfl, fun _ member => member, fun _ member => .inl member, by simp⟩
  | cons a rest ih =>
    have step : ∃ next, phiStep (.number k, found) a = (.number k, next) ∧
        (∀ l ∈ found, l ∈ next) ∧ (∀ l ∈ next, l ∈ found ∨ l = .number k) ∧
        .number k ∈ next := by
      cases a with
      | phi target args =>
        simp only [phiStep, reduceCtorEq, false_or]
        split
        next here =>
          exact ⟨found, rfl, fun _ member => member, fun _ member => .inl member,
            mem_of_mem_head? here⟩
        · exact ⟨.number k :: found, rfl, fun _ member => .tail _ member,
            fun l member => (mem_cons.mp member).symm, mem_cons_self⟩
      | _ => cases joined _ mem_cons_self
    obtain ⟨next, here, kept, only, listed⟩ := step
    obtain ⟨more, after, stays, added, -⟩ :=
      ih (fun b member => joined b (.tail _ member)) next
    refine ⟨more, by rw [foldl_cons, here, after], fun l member => stays l (kept l member), ?_,
      fun _ => stays _ listed⟩
    intro l member
    rcases added l member with before | own
    · exact only l before
    · exact .inr own

theorem Runs.forall_emitted {plan : Plan} {b : PlannedBlock} {throwing : Option Nat}
    {kept : Registers} {v : Verdict} {regs out : Registers} {actions : List Action}
    (runs : Runs file plan b throwing kept v index regs actions out)
    (emitted : ∀ {addr new regs op a after},
      Emits plan.labelOf (plan.labelOf addr) new regs op (some a) after →
        holds (a.substitute v.subst)) : ∀ a ∈ actions, holds a := by
  induction runs with
  | finish => simp
  | @step _ _ _ _ _ _ made _ _ _ emits _ _ _ _ _ _ _ ih =>
    intro a member
    rcases mem_append.mp member with here | later
    · cases made with
      | none => cases here
      | some other =>
        rw [Option.toList_some, map_singleton, mem_singleton] at here
        rw [here]
        exact emitted emits
    · exact ih a later

@[simp] theorem isPhi_substitute (subst : Substitution) (a : Action) :
    (a.substitute subst).isPhi = a.isPhi := by
  cases a <;> rfl

/-- A statement refers to labels up to a number only. -/
def Refers (bound : Nat) (a : Action) : Prop :=
  (∀ l ∈ a.targets, ∃ j ≤ bound, l = .number j) ∧
    ∀ arg ∈ a.phiArgs, ∃ j ≤ bound, arg.pred = .number j

@[simp] theorem targets_substitute (subst : Substitution) (a : Action) :
    (a.substitute subst).targets = a.targets := by
  cases a <;> rfl

namespace Lowered

variable (lowered : Lowered file ref isStatic code m s)

include lowered

section

variable (member : k ∈ s.layout)

include member

theorem body_cases :
    (k < s.plan.source.starts.length ∧ (s.plan.block k).leadsTo = none) ∨
    ∃ h < s.plan.source.starts.length, (s.plan.block k).leadsTo = some h ∧
      (s.piece k).body = [.goto (.number h)] ∧ (s.plan.block k).succs = [h] := by
  have inside : k < s.plan.blocks.size := mem_range.mp (mem_of_mem_filter member)
  by_cases early : k < s.plan.source.starts.length
  · exact .inl ⟨early, lowered.sound.leadsTo k early⟩
  · obtain ⟨h, bound, leads, succs, -⟩ :=
      lowered.sound.front k inside (Nat.le_of_not_lt early)
    have label := lowered.sound.label h (lt_of_lt_of_le bound lowered.sound.count)
    refine .inr ⟨h, bound, leads, ?_, succs⟩
    rw [((lowered.reached k member).front h leads).2]
    exact congrArg (fun l => [Action.goto l]) label

theorem forall_body
    (jump : ∀ h < s.plan.source.starts.length, holds (.goto (.number h)))
    (emitted : ∀ {addr new regs op a after},
      Emits s.plan.labelOf (s.plan.labelOf addr) new regs op (some a) after →
        holds (a.substitute s.verdict.subst)) : ∀ a ∈ (s.piece k).body, holds a := by
  rcases lowered.body_cases member with ⟨-, own⟩ | ⟨h, bound, -, body, -⟩
  · exact ((lowered.reached k member).instructions own).forall_emitted emitted
  · intro a inside
    rw [body, mem_singleton] at inside
    rw [inside]
    exact jump h bound

theorem body_plain : ∀ a ∈ (s.piece k).body, a.label? = none ∧ a.isPhi = false := by
  refine lowered.forall_body member (fun _ _ => ⟨rfl, rfl⟩) fun emits => ?_
  rw [label?_substitute, isPhi_substitute]
  exact ⟨emits.not_label, emits.not_phi⟩

end

theorem labelOf_eq (addr : UInt32) :
    s.plan.labelOf addr = .number (blockOf s.plan.source s.plan.starts addr) ∧
      blockOf s.plan.source s.plan.starts addr < s.plan.source.starts.length := by
  have bound := blockOf_lt s.plan.source addr lowered.nonempty
  rw [← lowered.starts] at bound
  refine ⟨lowered.sound.label _ ?_, by rwa [lowered.starts] at bound ⊢⟩
  rw [lowered.starts] at bound ⊢
  exact lt_of_lt_of_le bound lowered.sound.count

theorem phiStep_segment (member : k ∈ s.layout) (state : Label × List Label) :
    (∀ l ∈ state.2, l ∈ ((s.segment k).foldl phiStep state).2) ∧
      (∀ l ∈ ((s.segment k).foldl phiStep state).2, l ∈ state.2 ∨ l = .number k) ∧
      ((s.piece k).joins ≠ [] → .number k ∈ ((s.segment k).foldl phiStep state).2) := by
  obtain ⟨more, joins, kept, only, listed⟩ :=
    phiStep_joins (k := k) ((s.piece k).joins.map (s.phi k)) (by
        intro a inside
        obtain ⟨r, -, rfl⟩ := mem_map.mp inside
        rfl)
      state.2
  have front : (labelled (startsAt s.trapped k ++ [k])).foldl phiStep state =
      (.number k, state.2) := by
    have found := phiStep_labelled (startsAt s.trapped k) state
    rw [labelled, map_append, foldl_append, map_singleton, foldl_cons, foldl_nil]
    rw [← found]
    rfl
  have whole : ((s.segment k).foldl phiStep state).2 = more := by
    rw [Shape.segment, foldl_append, foldl_append, foldl_append, front, joins,
      phiStep_plain _ _ (lowered.body_plain member), phiStep_labelled]
  rw [whole]
  exact ⟨kept, only, fun some => listed (by simpa using some)⟩

theorem phiLabels_spec :
    (∀ l ∈ m.phiLabels, ∃ k ∈ s.layout, l = .number k) ∧
      ∀ k ∈ s.layout, (s.piece k).joins ≠ [] → .number k ∈ m.phiLabels := by
  have blocks : ∀ (ks : List Nat) (state : Label × List Label), (∀ k ∈ ks, k ∈ s.layout) →
      (∀ l ∈ state.2, l ∈ ((ks.flatMap s.segment).foldl phiStep state).2) ∧
      (∀ l ∈ ((ks.flatMap s.segment).foldl phiStep state).2,
        l ∈ state.2 ∨ ∃ k ∈ ks, l = .number k) ∧
      ∀ k ∈ ks, (s.piece k).joins ≠ [] →
        .number k ∈ ((ks.flatMap s.segment).foldl phiStep state).2 := by
    intro ks
    induction ks with
    | nil => intro state _; exact ⟨fun _ member => member, fun _ member => .inl member, by simp⟩
    | cons k rest ih =>
      intro state listed
      obtain ⟨kept, only, own⟩ := lowered.phiStep_segment (listed k (by simp)) state
      obtain ⟨stays, added, others⟩ := ih ((s.segment k).foldl phiStep state)
        fun j member => listed j (.tail _ member)
      rw [flatMap_cons, foldl_append]
      refine ⟨fun l member => stays l (kept l member), ?_, ?_⟩
      · intro l member
        rcases added l member with before | ⟨j, inside, same⟩
        · rcases only l before with old | here
          · exact .inl old
          · exact .inr ⟨k, by simp, here⟩
        · exact .inr ⟨j, mem_cons_of_mem _ inside, same⟩
      · intro j member some
        rcases mem_cons.mp member with rfl | later
        · exact stays _ (own some)
        · exact others j later some
  have opening : (.label (.number s.plan.blocks.size) :: s.opening : List Action).foldl phiStep
      (.nowhere, []) = (.number s.plan.blocks.size, []) := by
    rw [foldl_cons]
    refine phiStep_plain s.opening _ fun a member => ?_
    obtain ⟨plain, -, -, other⟩ :=
      stable_of_isNaming (lowered.enters.isNaming a member) s.verdict.subst
    exact ⟨other, plain⟩
  obtain ⟨-, only, own⟩ := blocks s.layout (.number s.plan.blocks.size, []) fun _ member => member
  rw [Method.phiLabels, lowered.actions, foldl_append, opening]
  refine ⟨?_, ?_⟩
  · intro l member
    rcases only l (mem_reverse.mp member) with nothing | found
    · cases nothing
    · exact found
  · intro k member some
    exact mem_reverse.mpr (own k member some)

theorem mem_actions (member : a ∈ m.actions) :
    a = .label (.number s.plan.blocks.size) ∨ a ∈ s.opening ∨
      ∃ k ∈ s.layout, a ∈ s.segment k := by
  rw [lowered.actions] at member
  rcases mem_append.mp member with entry | blocks
  · rcases mem_cons.mp entry with label | naming
    · exact .inl label
    · exact .inr (.inl naming)
  · obtain ⟨k, listed, inside⟩ := mem_flatMap.mp blocks
    exact .inr (.inr ⟨k, listed, inside⟩)

theorem mem_of_segment (listed : k ∈ s.layout) (inside : a ∈ s.segment k) : a ∈ m.actions := by
  rw [lowered.actions]
  exact mem_append_right _ (mem_flatMap.mpr ⟨k, listed, inside⟩)

theorem mem_of_known (known : Known s.done e) (source : e.source = some k) : k ∈ s.layout := by
  have reached := known k source
  refine mem_filter.mpr ⟨mem_range.mpr ?_, reached⟩
  obtain ⟨f, followed⟩ := Option.isSome_iff_exists.mp reached
  by_contra outside
  rw [← lowered.size] at outside
  simp [followed?, Nat.not_lt.mp outside] at followed

theorem sourceLabel_eq (known : Known s.done e) :
    sourceLabel s.plan s.entry e = .number (e.source.getD s.plan.blocks.size) ∧
      ∀ k, e.source = some k → k < s.plan.blocks.size := by
  cases source : e.source with
  | none =>
    refine ⟨?_, by simp⟩
    rw [sourceLabel, source]
    exact lowered.entry
  | some k =>
    have inside : k < s.plan.blocks.size :=
      mem_range.mp (mem_of_mem_filter (lowered.mem_of_known known source))
    refine ⟨?_, fun j same => Option.some.inj same ▸ inside⟩
    rw [sourceLabel, source]
    exact lowered.sound.label k inside

theorem source_injective {other : Edge} (known : Known s.done e) (known' : Known s.done other)
    (same : sourceLabel s.plan s.entry e = sourceLabel s.plan s.entry other) :
    e.source = other.source := by
  obtain ⟨first, firstInside⟩ := lowered.sourceLabel_eq known
  obtain ⟨second, secondInside⟩ := lowered.sourceLabel_eq known'
  rw [first, second] at same
  injection same with same
  cases source : e.source with
  | none =>
    cases source' : other.source with
    | none => rfl
    | some k =>
      rw [source, source'] at same
      exact absurd (secondInside k source') (by rw [← show _ = k from same]; exact lt_irrefl _)
  | some k =>
    cases source' : other.source with
    | none =>
      rw [source, source'] at same
      exact absurd (firstInside k source) (by rw [show k = _ from same]; exact lt_irrefl _)
    | some j =>
      rw [source, source'] at same
      exact congrArg some same

theorem refers_of_mem (member : a ∈ m.actions) : Refers s.plan.blocks.size a := by
  have plain : ∀ {b : Action}, b.targets = [] → b.phiArgs = [] → Refers s.plan.blocks.size b := by
    intro b none nothing
    rw [Refers, none, nothing]
    simp
  have inside : ∀ h < s.plan.source.starts.length, h ≤ s.plan.blocks.size :=
    fun h bound => Nat.le_of_lt (Nat.lt_of_lt_of_le bound lowered.sound.count)
  have labelOf : ∀ addr, ∃ j ≤ s.plan.blocks.size, s.plan.labelOf addr = .number j :=
    fun addr => ⟨_, inside _ (lowered.labelOf_eq addr).2, (lowered.labelOf_eq addr).1⟩
  rcases lowered.mem_actions member with rfl | naming | ⟨k, listed, inSegment⟩
  · exact plain rfl rfl
  · have names := lowered.enters.isNaming a naming
    unfold isNaming at names
    split at names
    · exact plain rfl rfl
    · exact plain rfl rfl
    · cases names
  · simp only [Shape.segment, mem_append] at inSegment
    rcases inSegment with ((start | join) | body) | stop
    · obtain ⟨index, -, rfl⟩ := mem_map.mp start
      exact plain rfl rfl
    · obtain ⟨r, -, rfl⟩ := mem_map.mp join
      refine ⟨fun l target => (nomatch target), ?_⟩
      intro arg operand
      obtain ⟨own, there, rfl⟩ := mem_map.mp operand
      obtain ⟨e, -, known, l, -, rfl⟩ := (phiOperands_spec _ _ _ _ _).1 own there
      refine ⟨_, ?_, (lowered.sourceLabel_eq known).1⟩
      cases source : e.source with
      | none => exact Nat.le_refl _
      | some j => exact Nat.le_of_lt ((lowered.sourceLabel_eq known).2 j source)
    · refine lowered.forall_body listed ?_ ?_ a body
      · intro h bound
        refine ⟨fun l target => ⟨h, inside h bound, ?_⟩, fun arg operand => (nomatch operand)⟩
        exact mem_singleton.mp target
      · intro addr new regs op b after emits
        refine ⟨fun l target => ?_, fun arg operand => ?_⟩
        · rw [targets_substitute] at target
          cases emits with
          | branch | branchZero | goto => exact mem_singleton.mp target ▸ labelOf _
          | switch =>
            rcases mem_cons.mp target with rfl | case_
            · exact labelOf _
            · obtain ⟨other, -, rfl⟩ := mem_map.mp case_
              exact labelOf other
          | _ => cases target
        · cases emits <;> cases operand
    · obtain ⟨index, -, rfl⟩ := mem_map.mp stop
      exact plain rfl rfl

theorem handlerEntry_eq (h : Dex.Handler) :
    let target := landing s.plan.blocks (blockOf s.plan.source s.plan.starts h.addr)
    handlerEntry s.plan s.done h.addr = (.number target, (followed? s.done target).isSome) ∧
      target < s.plan.blocks.size := by
  intro target
  have bound := (lowered.labelOf_eq h.addr).2
  have inside : target < s.plan.blocks.size := by
    rcases landing_cases s.plan.blocks
      (blockOf s.plan.source s.plan.starts h.addr) with ⟨same, -⟩ | ⟨less, -⟩
    · rw [show target = _ from same]
      exact lt_of_lt_of_le bound lowered.sound.count
    · exact less
  refine ⟨?_, inside⟩
  have label : (s.plan.block target).label = .number target := lowered.sound.label target inside
  rw [← label]
  rfl

theorem handler_of_mem {trap : Trap} (member : trap ∈ m.traps) :
    ∃ t ∈ s.trapped, ∃ h ∈ t.source.handlers,
      trap = ⟨.number t.start, .number t.stop, .number (landing s.plan.blocks
        (blockOf s.plan.source s.plan.starts h.addr)), h.type⟩ ∧
      landing s.plan.blocks (blockOf s.plan.source s.plan.starts h.addr) ∈ s.layout := by
  rw [lowered.traps] at member
  obtain ⟨t, trapped, inside⟩ := mem_flatMap.mp member
  obtain ⟨h, handles, found⟩ := mem_filterMap.mp inside
  obtain ⟨entry, bound⟩ := lowered.handlerEntry_eq h
  rw [entry] at found
  split at found
  next reached =>
    cases found
    exact ⟨t, trapped, h, handles, rfl, mem_filter.mpr ⟨mem_range.mpr bound, reached⟩⟩
  · cases found

theorem opens_le {l : Label} (opens : m.opens l = true) :
    ∃ j ≤ s.plan.blocks.size, l = .number j := by
  have layoutLe : ∀ k ∈ s.layout, k ≤ s.plan.blocks.size := fun k member =>
    le_of_lt (mem_range.mp (mem_of_mem_filter member))
  have listed := contains_iff_mem.mp opens
  rcases mem_append.mp listed with first | phi
  · rcases mem_append.mp first with action | handler
    · obtain ⟨a, member, inside⟩ := mem_flatMap.mp action
      obtain ⟨targets, args⟩ := lowered.refers_of_mem member
      rcases mem_append.mp inside with target | way
      · exact targets l target
      · obtain ⟨arg, operand, rfl⟩ := mem_map.mp way
        exact args arg operand
    · obtain ⟨trap, member, rfl⟩ := mem_map.mp handler
      obtain ⟨t, -, h, -, rfl, reached⟩ := lowered.handler_of_mem member
      exact ⟨_, layoutLe _ reached, rfl⟩
  · obtain ⟨k, member, rfl⟩ := lowered.phiLabels_spec.1 l phi
    exact ⟨k, layoutLe k member, rfl⟩

theorem not_opens (member : t ∈ s.trapped) (label : index ∈ [t.start, t.stop]) :
    m.opens (.number index) = false := by
  rw [Bool.eq_false_iff]
  intro opens
  obtain ⟨j, le, same⟩ := lowered.opens_le opens
  cases same
  have bounds := le_of_labels lowered.labels member
  rcases mem_cons.mp label with rfl | later
  · omega
  · rw [mem_singleton.mp later] at le
    omega

theorem opens_of_joins (member : k ∈ s.layout) (some : (s.piece k).joins ≠ []) :
    m.opens (.number k) = true :=
  contains_iff_mem.mpr (mem_append_right _ (lowered.phiLabels_spec.2 k member some))

theorem opens_of_operand {r : Nat} (member : k ∈ s.layout) (join : r ∈ (s.piece k).joins)
    {arg : PhiArg} (operand : arg ∈ s.operands k r) : m.opens arg.pred = true := by
  refine contains_iff_mem.mpr (mem_append_left _ (mem_append_left _ ?_))
  have inBody : s.phi k r ∈ m.actions := by
    refine lowered.mem_of_segment member ?_
    simp only [Shape.segment, mem_append]
    exact .inl (.inl (.inr (mem_map_of_mem join)))
  refine mem_flatMap.mpr ⟨s.phi k r, inBody, mem_append_right _ ?_⟩
  exact mem_map.mpr ⟨_, mem_map_of_mem operand, rfl⟩

end Lowered

end DexLift.Lower
