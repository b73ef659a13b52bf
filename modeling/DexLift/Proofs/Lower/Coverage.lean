import DexLift.Proofs.Ir.Landing
import DexLift.Proofs.Lower.Paths
import DexLift.Proofs.Lower.Refinement

/-!
# Coverage of tries

Every reached instruction that can throw has one statement, and the traps that
cover this statement are the handlers of the tries that cover the instruction, in
their order. Nothing else can throw. The exceptional edges of blocks are found by
the address of an instruction and the labels of traps are placed by the address
of a block; the two agree because tries begin and end with instructions.
-/

namespace DexLift

open List

namespace Ir

/-- What the traps that cover a position take and where they lead, in the order of the table. -/
def Method.coverage (m : Method) (position : Nat) : List (Text × Label) :=
  ((Flow.ofMethod m).coversOf position).filterMap fun i =>
    (m.traps[i]?).map fun t => (t.type, t.handler)

theorem Method.Tidy.coverage_eq {m : Method} (tidy : m.Tidy) {position : Nat} {a : Action}
    (found : m.actions[position]? = some a) :
    m.coverage position =
      (m.traps.filter (m.covered · position)).map fun t => (t.type, t.handler) := by
  have inside : position < m.order.size := by
    simpa using (lt_of_get found)
  rw [coverage, coversOf_ofMethod inside, tidy.filterMap_coversAt]
  rfl

end Ir

namespace Lower

open Ir Dalvik

/-! ## Reached instructions -/

variable {plan : Plan} {k index position : Nat} {a : Action}

inductive Source.Reaches (source : Source) : Nat → Prop where
  | first : Reaches source 0
  | next {index : Nat} (before : Reaches source index)
      (continues : (source.at_ index).op.flow.continues = true)
      (inside : index + 1 < source.instructions.size) : Reaches source (index + 1)
  | jump {index target : Nat} {addr : UInt32} (before : Reaches source index)
      (jumps : (source.at_ index).op.flow.branches = true ∧ addr = (source.at_ index).target ∨
        (source.at_ index).op.flow.switches = true ∧
          addr ∈ Source.switchTargets (source.at_ index))
      (found : source.indexOf? addr = some target) : Reaches source target
  | raise {index target : Nat} {h : Dex.Handler} (before : Reaches source index)
      (throws : (source.at_ index).op.flow.throws = true)
      (handles : h ∈ handlersAt source (source.at_ index).addr)
      (found : source.indexOf? h.addr = some target) : Reaches source target

structure Plan.ReachedIn (plan : Plan) (k index : Nat) : Prop where
  reached : k ∈ Plan.reversePostorder plan.blocks
  own : k < plan.source.starts.length
  after : plan.source.startOf k ≤ index
  before : index < plan.source.stopOf k

/-- An instruction of a reached block. -/
def Plan.Reached (plan : Plan) (index : Nat) : Prop := ∃ k, plan.ReachedIn k index

theorem Plan.ReachedIn.unique {j : Nat} (first : plan.ReachedIn j index)
    (second : plan.ReachedIn k index) : j = k := by
  have apart : ∀ {j k}, plan.ReachedIn j index → plan.ReachedIn k index → ¬ j < k := by
    intro j k first second less
    have later := Source.startOf_lt (s := plan.source) less second.own
    exact Source.not_start_between first.own later
      (lt_of_le_of_lt second.after first.before) (Source.startOf_mem second.own)
  have := apart first second
  have := apart second first
  omega

/-! ## Places in lists -/

theorem getElem?_append_cases {α : Type} {xs ys : List α} {i : Nat} {x : α}
    (found : (xs ++ ys)[i]? = some x) :
    xs[i]? = some x ∨ ∃ j, ys[j]? = some x ∧ i = xs.length + j := by
  rw [getElem?_append] at found
  split at found
  · exact .inl found
  · exact .inr ⟨i - xs.length, found, by omega⟩

theorem getElem?_flatMap_cases {α : Type} {ks : List Nat} (sorted : ks.Pairwise (· < ·))
    {f : Nat → List α} {i : Nat} {x : α} (found : (ks.flatMap f)[i]? = some x) :
    ∃ k ∈ ks, ∃ j, (f k)[j]? = some x ∧
      i = ((ks.filter fun other => decide (other < k)).flatMap f).length + j := by
  induction ks generalizing i with
  | nil => cases found
  | cons first rest ih =>
    obtain ⟨less, restSorted⟩ := pairwise_cons.mp sorted
    rw [flatMap_cons] at found
    rcases getElem?_append_cases found with here | ⟨j, later, rfl⟩
    · refine ⟨first, mem_cons_self, i, here, ?_⟩
      have none : (first :: rest).filter (fun other => decide (other < first)) = [] := by
        refine filter_eq_nil_iff.mpr fun other member => ?_
        rcases mem_cons.mp member with rfl | inside
        · simp
        · simpa using le_of_lt (less other inside)
      rw [none]
      simp
    · obtain ⟨k, member, q, there, rfl⟩ := ih restSorted later
      refine ⟨k, .tail _ member, q, there, ?_⟩
      rw [filter_cons_of_pos (by simpa using less k member), flatMap_cons,
        length_append, Nat.add_assoc]

/-! ## The statement of an instruction -/

/-- A statement that the instruction at an index is lowered to, with some locals replaced by those
that stand for them. -/
def StemsFrom (file : Dex.File) (plan : Plan) (index : Nat) (a : Action) : Prop :=
  ∃ (op : Operation) (new : LocalId) (regs after : Registers) (emitted : Action)
    (subst : Substitution),
    operation? file (plan.source.at_ index) (resultMove plan.source index) = some op ∧
      Emits plan.labelOf
        (plan.labelOf ((plan.source.at_ index).addr + UInt32.ofNat (plan.source.at_ index).size))
        new regs op (some emitted) after ∧
      a = emitted.substitute subst

theorem StemsFrom.throws {file : Dex.File} (stems : StemsFrom file plan index a)
    (thrown : a.canThrow = true) : (plan.source.at_ index).op.flow.throws = true := by
  obtain ⟨op, _, _, _, _, subst, does, emits, rfl⟩ := stems
  rw [← (flowsAs_of_operation does).throws]
  exact emits.throws subst thrown

theorem Emits.some_of_throws {labelOf : UInt32 → Label} {behind : Label} {new : LocalId}
    {regs after : Registers} {op : Operation} {emitted : Option Action}
    (emits : Emits labelOf behind new regs op emitted after) (throws : Lower.throws op = true) :
    ∃ a, emitted = some a := by
  cases emits <;> first | exact ⟨_, rfl⟩ | cases throws

/-- The instructions from which the statements of a block stem: they ascend, and those that can
throw are all among them. -/
structure Traced (file : Dex.File) (plan : Plan) (index stop : Nat) (actions : List Action)
    (origins : List Nat) : Prop where
  stems : Forall₂ (fun a i => StemsFrom file plan i a) actions origins
  inside : ∀ i ∈ origins, index ≤ i ∧ i < stop
  ascending : origins.Pairwise (· < ·)
  complete : ∀ i, index ≤ i → i < stop → (plan.source.at_ i).op.flow.throws = true → i ∈ origins

variable {file : Dex.File} {ref : MethodRef} {isStatic : Bool} {code : Dex.Code} {m : Ir.Method}
  {s : Shape}

namespace Lowered

variable (lowered : Lowered file ref isStatic code m s)

include lowered

theorem reached_of_reaches (planned : ∀ k, k ∈ s.layout ↔ k ∈ Plan.reversePostorder s.plan.blocks)
    (reaches : s.plan.source.Reaches index) : s.plan.Reached index := by
  -- A block that begins with an instruction and follows a reached one contains the instruction.
  have begins : ∀ {target k}, k ∈ s.layout → k < s.plan.source.starts.length →
      s.plan.source.startOf k = target → s.plan.Reached target := by
    rintro target k listed own rfl
    exact ⟨k, (planned k).mp listed, own, le_rfl, Source.startOf_lt_stopOf own⟩
  induction reaches with
  | first =>
    have zero : s.plan.source.startOf 0 = 0 := by
      have inside := lt_of_lt_of_le
        (Nat.zero_lt_of_lt (Source.startOf_lt_stopOf lowered.nonempty)) Source.stopOf_le
      rw [Source.startOf, getD_eq_getElem?_getD, s.plan.source.starts_head inside]
      rfl
    exact begins lowered.first lowered.nonempty zero
  | @next index _ continues inside ih =>
    obtain ⟨k, reached, own, after, before⟩ := ih
    by_cases still : index + 1 < s.plan.source.stopOf k
    · exact ⟨k, reached, own, by omega, still⟩
    · have last : s.plan.source.stopOf k = index + 1 := by omega
      obtain ⟨bound, -, listed⟩ := lowered.next_block ((planned k).mpr reached) own
        (by rw [last, Nat.add_sub_cancel]; exact continues)
      exact begins listed bound ((Source.startOf_succ bound).trans last)
  | @jump index target addr _ jumps found ih =>
    obtain ⟨k, reached, own, after, before⟩ := ih
    have inside : index < s.plan.source.instructions.size :=
      lt_of_lt_of_le before Source.stopOf_le
    have last := stopOf_of_transfers own after before (by
      rcases jumps with ⟨branches, -⟩ | ⟨switches, -⟩
      · simp [branches]
      · simp [switches])
    have start := mem_starts_of_jump inside (jumps.imp_right And.right) found
    obtain ⟨bound, here⟩ := blockOf_of_start found start
    have succ := lowered.succ_of_jump own last jumps
    exact begins (lowered.closed k ((planned k).mpr reached) _ (mem_append_left _ succ)) bound here
  | @raise index target h _ throws handles found ih =>
    obtain ⟨k, reached, own, after, before⟩ := ih
    have start := mem_starts_of_handler handles found
    obtain ⟨bound, here⟩ := blockOf_of_start found start
    have thrown := lowered.closed k ((planned k).mpr reached) _ (mem_append_right _
      (lowered.landing_mem own after before throws handles))
    rw [lowered.starts] at thrown
    -- The exception lands at the handler, or in a block that leads to it.
    rcases Plan.landing_cases s.plan.blocks (Plan.blockOf s.plan.source s.plan.source.starts h.addr)
      with ⟨same, -⟩ | ⟨inside, leads, -⟩
    · rw [same] at thrown
      exact begins thrown bound here
    · have late : s.plan.source.starts.length ≤ Plan.landing s.plan.blocks
          (Plan.blockOf s.plan.source s.plan.source.starts h.addr) := by
        by_contra early
        rw [lowered.sound.leadsTo _ (Nat.lt_of_not_le early)] at leads
        cases leads
      obtain ⟨other, -, leads', succs, -⟩ := lowered.sound.front _ inside late
      cases leads.symm.trans leads'
      have listed := lowered.closed _ thrown
        (Plan.blockOf s.plan.source s.plan.source.starts h.addr)
        (mem_append_left _ (by rw [succs]; exact mem_singleton_self _))
      exact begins listed bound here

theorem traced_of_runs (listed : k ∈ s.layout) (own : k < s.plan.source.starts.length)
    {throwing : Option Nat} {kept : Registers} {regs out : Registers} {actions : List Action}
    (after : s.plan.source.startOf k ≤ index)
    (runs : Runs file s.plan (s.plan.block k) throwing kept s.verdict index regs actions out) :
    ∃ origins, Traced file s.plan index (s.plan.source.stopOf k) actions origins := by
  induction runs with
  | @finish index regs ended =>
    rw [lowered.stop_eq own] at ended
    exact ⟨[], .nil, by simp, .nil, fun i low high => absurd high (by omega)⟩
  | @step index new regs middle out op emitted rest inside does emits _ _ _ _ _ _ _
      ih =>
    rw [lowered.stop_eq own] at inside
    obtain ⟨less, le⟩ := lowered.nextIn_le own inside
    obtain ⟨origins, stems, within, ascending, complete⟩ :=
      ih (Nat.le_trans after (Nat.le_of_lt less))
    have moving := lowered.resultMove_eq listed own inside
    -- What is passed over is the move of the result.
    have silent : ∀ i, index < i → i < nextIn s.plan (s.plan.block k) index →
        (s.plan.source.at_ i).op.flow.throws = false := by
      intro i low high
      unfold nextIn at high
      split at high
      next moves =>
        unfold moveIn at moves
        split at moves
        next pairs =>
          have same : i = index + 1 := by omega
          have result := pairs.1
          simp only [Source.pairsWithResult, Bool.and_eq_true] at result
          have means := meaning_of_isMoveResult _ result.2
          rw [same, flow_of_meaning _ (by rw [means]; simp), means]
          rfl
        · cases moves
      · omega
    have later : ∀ i, index < i → i < s.plan.source.stopOf k →
        (s.plan.source.at_ i).op.flow.throws = true → i ∈ origins := by grind
    cases emitted with
    | none =>
      refine ⟨origins, stems, fun i member => ⟨?_, (within i member).2⟩, ascending, ?_⟩
      · exact Nat.le_trans (Nat.le_of_lt less) (within i member).1
      · intro i low high throws
        rcases Nat.lt_or_eq_of_le low with below | rfl
        · exact later i below high throws
        · rw [← (flowsAs_of_operation does).throws] at throws
          obtain ⟨a, same⟩ := emits.some_of_throws throws
          cases same
    | some a =>
      refine ⟨index :: origins, .cons ⟨op, new, regs, middle, a, _, moving ▸ does, emits, rfl⟩ stems,
        ?_, pairwise_cons.mpr ⟨?_, ascending⟩, ?_⟩
      · intro i member
        rcases mem_cons.mp member with rfl | inner
        · exact ⟨Nat.le_refl _, inside⟩
        · exact ⟨Nat.le_trans (Nat.le_of_lt less) (within i inner).1, (within i inner).2⟩
      · exact fun i member => Nat.lt_of_lt_of_le less (within i member).1
      · intro i low high throws
        rcases Nat.lt_or_eq_of_le low with below | rfl
        · exact mem_cons_of_mem _ (later i below high throws)
        · exact mem_cons_self

theorem throwing_in_body (found : m.actions[position]? = some a) (thrown : a.canThrow = true) :
    ∃ k ∈ s.layout, k < s.plan.source.starts.length ∧
      ∃ j, (s.piece k).body[j]? = some a ∧ position = s.bodyAt k + j := by
  have labels : ∀ {numbers : List Nat} {i : Nat}, (labelled numbers)[i]? ≠ some a := by
    intro numbers i there
    obtain ⟨_, -, rfl⟩ := mem_map.mp (mem_of_getElem? there)
    cases thrown
  rw [lowered.actions] at found
  rcases getElem?_append_cases found with entry | ⟨i, inBlocks, rfl⟩
  · rcases mem_cons.mp (mem_of_getElem? entry) with rfl | naming
    · cases thrown
    · rw [(quiet_of_isNaming (lowered.enters.isNaming a naming)).2.2.1] at thrown
      cases thrown
  · obtain ⟨k, listed, j, inSegment, rfl⟩ :=
      getElem?_flatMap_cases (layout_sorted s.plan s.done) inBlocks
    unfold Shape.segment at inSegment
    rcases getElem?_append_cases inSegment with front | ⟨_, stops, -⟩
    · rcases getElem?_append_cases front with opens | ⟨q, body, rfl⟩
      · rcases getElem?_append_cases opens with starts | ⟨_, joins, -⟩
        · exact absurd starts labels
        · obtain ⟨r, -, rfl⟩ := mem_map.mp (mem_of_getElem? joins)
          cases thrown
      · refine ⟨k, listed, ?_, q, body, ?_⟩
        · rcases lowered.body_cases listed with ⟨own, -⟩ | ⟨h, -, -, jump, -⟩
          · exact own
          · rw [jump] at body
            rw [mem_singleton.mp (mem_of_getElem? body)] at thrown
            cases thrown
        · simp only [Shape.bodyAt, Shape.header, Shape.base, Shape.layout, length_append,
            length_cons, length_map, labelled, length_nil]
          omega
    · exact absurd stops labels

theorem getElem?_body {j : Nat} (listed : k ∈ s.layout) (found : (s.piece k).body[j]? = some a) :
    m.actions[s.bodyAt k + j]? = some a ∧ s.Within k (s.bodyAt k + j) := by
  have bound := lt_of_get found
  constructor
  · have here := congrArg (fun rest : List Action => rest[j]?) (lowered.from_body listed)
    rwa [getElem?_append_left bound, found, getElem?_drop] at here
  · unfold Shape.Within Shape.stopAt Shape.bodyAt
    omega

end Lowered

/-- The place of the statement of a reached instruction, by the instructions that the statements of
blocks stem from. -/
structure Located (s : Shape) (origins : Nat → List Nat) (index k j position : Nat) : Prop where
  inside : s.plan.ReachedIn k index
  origin : (origins k)[j]? = some index
  place : position = s.bodyAt k + j

section Located

variable {origins : Nat → List Nat}

theorem Located.statement (lowered : Lowered file ref isStatic code m s) {j : Nat}
    (located : Located s origins index k j position) (listed : k ∈ s.layout)
    (traced : Traced file s.plan (s.plan.source.startOf k) (s.plan.source.stopOf k)
      (s.piece k).body (origins k)) :
    ∃ a, m.actions[position]? = some a ∧ StemsFrom file s.plan index a ∧ s.Within k position := by
  obtain ⟨bound, here⟩ := List.getElem?_eq_some_iff.mp located.origin
  have inBody : j < (s.piece k).body.length := traced.stems.length_eq ▸ bound
  have found := lowered.getElem?_body listed (getElem?_eq_getElem inBody)
  rw [← located.place] at found
  exact ⟨_, found.1, here ▸ traced.stems.get inBody bound, found.2⟩

theorem Located.unique (planned : ∀ k, k ∈ s.layout ↔ k ∈ Plan.reversePostorder s.plan.blocks)
    (ascending : ∀ k ∈ s.layout, k < s.plan.source.starts.length →
      (origins k).Pairwise (· < ·))
    {other l i j place : Nat} (first : Located s origins index k i position)
    (second : Located s origins other l j place) (within : s.Within k position)
    (within' : s.Within l place) : index = other ↔ position = place := by
  have listed := (planned k).mpr first.inside.reached
  have listed' := (planned l).mpr second.inside.reached
  constructor
  · rintro rfl
    cases first.inside.unique second.inside
    have nodup := (ascending k listed first.inside.own).imp (S := (· ≠ ·)) Nat.ne_of_lt
    have bound := lt_of_get first.origin
    have same := (getElem?_inj bound nodup).mp (first.origin.trans second.origin.symm)
    rw [first.place, second.place, same]
  · rintro rfl
    have apart : ∀ {k l}, k ∈ s.layout → k < l → s.Within k position → ¬ s.Within l position := by
      intro k l listed less inner outer
      have le := s.length_le_base listed less
      have length := s.length_segment k
      have := inner.2
      have := outer.1
      unfold Shape.header at this
      omega
    have same : k = l := by grind
    subst same
    have places := first.place.symm.trans second.place
    have here : i = j := by omega
    subst here
    exact Option.some.inj (first.origin.symm.trans second.origin)

end Located

/-- The traps of a lowered method cover exactly what the tries cover. Every reached instruction that
can throw has its own statement, whose traps in the order of the table are the handlers at the
address of the instruction; a handler that normal control reaches too is entered through the block
in front of it. No other statement can throw. -/
theorem lower_covers {method : Dex.Method} (done : method.lower file = .ok m)
    (hasCode : method.code = some code) (placed : WellPlaced (.ofCode code)) :
    ∃ (named : Ir.Method) (plan : Plan) (place : Nat → Nat),
      Plan.make (.ofRef method.ref method.access) code = .ok (named, plan) ∧
      (∀ index, Source.Reaches (.ofCode code) index → plan.Reached index) ∧
      (∀ index, plan.Reached index →
        ((Source.ofCode code).at_ index).op.flow.throws = true →
          (∃ a, m.actions[place index]? = some a ∧ StemsFrom file plan index a) ∧
          m.coverage (place index) =
            (handlersAt (.ofCode code) ((Source.ofCode code).at_ index).addr).map fun h =>
              (h.type, .number (Plan.landing plan.blocks
                (Plan.blockOf (.ofCode code) plan.starts h.addr)))) ∧
      (∀ first second, plan.Reached first → plan.Reached second →
        ((Source.ofCode code).at_ first).op.flow.throws = true →
        ((Source.ofCode code).at_ second).op.flow.throws = true →
          place first = place second → first = second) ∧
      ∀ position a, m.actions[position]? = some a → a.canThrow = true →
        ∃ index, plan.Reached index ∧ ((Source.ofCode code).at_ index).op.flow.throws = true ∧
          place index = position := by
  obtain ⟨other, s, named, same, make, planned, lowered⟩ := planned_of_lower done
  cases hasCode.symm.trans same
  rw [← lowered.source] at placed
  have traced : ∀ k, ∃ origins, k ∈ s.layout → k < s.plan.source.starts.length →
      Traced file s.plan (s.plan.source.startOf k) (s.plan.source.stopOf k) (s.piece k).body
        origins := by
    intro k
    by_cases here : k ∈ s.layout ∧ k < s.plan.source.starts.length
    · obtain ⟨origins, traces⟩ := lowered.traced_of_runs here.1 here.2 le_rfl
        (lowered.runs_of_mem here.1 here.2)
      exact ⟨origins, fun _ _ => traces⟩
    · exact ⟨[], fun listed own => absurd ⟨listed, own⟩ here⟩
  choose origins traced using traced
  have ascending : ∀ k ∈ s.layout, k < s.plan.source.starts.length →
      (origins k).Pairwise (· < ·) := fun k listed own => (traced k listed own).ascending
  -- Every reached instruction that can throw is located somewhere.
  have located : ∀ index, ∃ position, s.plan.Reached index →
      (s.plan.source.at_ index).op.flow.throws = true →
        ∃ k j, Located s origins index k j position := by
    intro index
    by_cases reached : s.plan.Reached index ∧ (s.plan.source.at_ index).op.flow.throws = true
    · obtain ⟨⟨k, inside⟩, throws⟩ := reached
      have member := (traced k ((planned k).mpr inside.reached) inside.own).complete index
        inside.after inside.before throws
      obtain ⟨j, origin⟩ := mem_iff_getElem?.mp member
      exact ⟨s.bodyAt k + j, fun _ _ => ⟨k, j, inside, origin, rfl⟩⟩
    · exact ⟨0, fun here throws => absurd ⟨here, throws⟩ reached⟩
  choose place located using located
  have statement : ∀ {index k j position}, Located s origins index k j position →
      ∃ a, m.actions[position]? = some a ∧ StemsFrom file s.plan index a ∧ s.Within k position :=
    fun here => here.statement lowered ((planned _).mpr here.inside.reached)
      (traced _ ((planned _).mpr here.inside.reached) here.inside.own)
  rw [← lowered.source]
  refine ⟨named, s.plan, place, make, fun index reaches => lowered.reached_of_reaches planned reaches,
    ?_, ?_, ?_⟩
  · intro index reached throws
    obtain ⟨k, j, here⟩ := located index reached throws
    obtain ⟨a, found, stems, within⟩ := statement here
    refine ⟨⟨a, found, stems⟩, ?_⟩
    rw [lowered.tidy.coverage_eq found]
    exact lowered.covering_eq placed ((planned k).mpr here.inside.reached) here.inside.own within
      here.inside.after here.inside.before throws
  · intro first second reached reached' throws throws' same
    obtain ⟨k, i, here⟩ := located first reached throws
    obtain ⟨l, j, there⟩ := located second reached' throws'
    obtain ⟨_, -, -, within⟩ := statement here
    obtain ⟨_, -, -, within'⟩ := statement there
    exact (here.unique planned ascending there within within').mpr same
  · intro position a found thrown
    obtain ⟨k, listed, own, j, body, rfl⟩ := lowered.throwing_in_body found thrown
    have traces := traced k listed own
    have bound := traces.stems.length_eq ▸ (lt_of_get body)
    have origin : (origins k)[j]? = some (origins k)[j] := getElem?_eq_getElem bound
    have here : Located s origins (origins k)[j] k j (s.bodyAt k + j) :=
      ⟨⟨(planned k).mp listed, own, (traces.inside _ (getElem_mem bound)).1,
        (traces.inside _ (getElem_mem bound)).2⟩, origin, rfl⟩
    obtain ⟨b, same, stems, within⟩ := statement here
    cases found.symm.trans same
    have throws := stems.throws thrown
    obtain ⟨l, i, there⟩ := located _ ⟨k, here.inside⟩ throws
    obtain ⟨_, -, -, within'⟩ := statement there
    exact ⟨_, ⟨k, here.inside⟩, throws,
      ((there.unique planned ascending here within' within).mp rfl)⟩

/-- The division in the loop is covered by its one handler. -/
theorem lower_covers_dividing : ∃ m, dividingMethod.lower emptyFile = .ok m ∧
    ∃ position handler, m.coverage position = [(∅, handler)] := by
  obtain ⟨m, done, -⟩ := exists_lower_dividing
  obtain ⟨_, plan, place, -, reached, covered, -⟩ := lower_covers done rfl wellPlaced_dividing
  have comes : Source.Reaches (.ofCode dividing) 1 :=
    .next .first (by decide +kernel) (by decide)
  have throws : ((Source.ofCode dividing).at_ 1).op.flow.throws = true := by decide +kernel
  exact ⟨m, done, place 1, _, (covered 1 (reached 1 comes) throws).2⟩

end Lower

end DexLift
