import DexLift.Proofs.Ir.Landing
import DexLift.Resolve.Traps
import Mathlib.Data.List.NodupEquivFin

/-!
# Ranges around runs

The positions with catches fall into runs: each begins and ends with a position
that has them, and between these stand only positions with the same catches and
statements that cannot throw. Putting labels around the runs one by one leaves
the statements in their order, and the labels of a run enclose just the
statements from its first to its last position.
-/

namespace DexLift.Ir

open List

/-! ## Runs of positions -/

section Runs

variable {f : Flow} {lists : Nat → List Catch} {first position stop : Nat} {run : CatchRun}
  {runs : List CatchRun}

/-- A run begins and ends with its catches, and has nothing else inside but fillers. -/
structure CatchRun.IsRun (run : CatchRun) (f : Flow) (lists : Nat → List Catch) : Prop where
  le : run.first ≤ run.last
  catches : run.catches ≠ []
  first : lists run.first = run.catches
  last : lists run.last = run.catches
  inside : ∀ i, run.first ≤ i → i ≤ run.last →
    (f.action i).isFiller = true ∨ lists i = run.catches

/-- The runs of the positions from one to another, in order. -/
structure SplitsInto (f : Flow) (lists : Nat → List Catch) (first stop : Nat)
    (runs : List CatchRun) : Prop where
  each : ∀ run ∈ runs, run.IsRun f lists
  low : ∀ run ∈ runs, first ≤ run.first
  high : ∀ run ∈ runs, run.last < stop
  apart : runs.Pairwise fun run later => run.last < later.first
  all : ∀ i, first ≤ i → i < stop → lists i ≠ [] → ∃ run ∈ runs, run.first ≤ i ∧ i ≤ run.last

/-- A run that ends in front of a position, with only fillers in between. -/
structure CatchRun.OpenTo (run : CatchRun) (f : Flow) (lists : Nat → List Catch)
    (position : Nat) : Prop extends run.IsRun f lists where
  before : run.last < position
  fillers : ∀ i, run.last < i → i < position → (f.action i).isFiller = true

theorem CatchRun.openTo_single (some : lists position ≠ []) :
    (CatchRun.mk position position (lists position)).OpenTo f lists (position + 1) where
  le := le_rfl
  catches := some
  first := rfl
  last := rfl
  inside := fun i low high => .inr (le_antisymm high low ▸ rfl)
  before := Nat.lt_succ_self _
  fillers := fun i low high => absurd high (by dsimp only at low; omega)

section

variable (opened : run.OpenTo f lists position)

include opened

theorem CatchRun.OpenTo.skip
    (filler : (f.action position).isFiller = true) : run.OpenTo f lists (position + 1) where
  toIsRun := opened.toIsRun
  before := Nat.lt_succ_of_lt opened.before
  fillers := fun i low high => by
    rcases Nat.lt_succ_iff_lt_or_eq.mp high with early | rfl
    · exact opened.fillers i low early
    · exact filler

theorem CatchRun.OpenTo.grow (same : lists position = run.catches) :
    { run with last := position }.OpenTo f lists (position + 1) where
  le := le_of_lt (lt_of_le_of_lt opened.le opened.before)
  catches := opened.catches
  first := opened.first
  last := same
  inside := fun i low high => by
    rcases Nat.lt_or_ge run.last i with behind | inFront
    · rcases Nat.eq_or_lt_of_le high with rfl | high
      · exact .inr same
      · exact .inl (opened.fillers i behind high)
    · exact opened.inside i low inFront
  before := Nat.lt_succ_self _
  fillers := fun i low high => absurd high (by dsimp only at low; omega)

theorem CatchRun.OpenTo.splitsInto (silent : ∀ i, (f.action i).isFiller = true → lists i = [])
    (rest : SplitsInto f lists position stop runs) (le : position ≤ stop) :
    SplitsInto f lists run.first stop (run :: runs) where
  each := forall_mem_cons.mpr ⟨opened.toIsRun, rest.each⟩
  low := forall_mem_cons.mpr ⟨le_rfl, fun later member =>
    le_trans (le_of_lt (lt_of_le_of_lt opened.le opened.before)) (rest.low later member)⟩
  high := forall_mem_cons.mpr ⟨lt_of_lt_of_le opened.before le, rest.high⟩
  apart := pairwise_cons.mpr ⟨fun later member =>
    lt_of_lt_of_le opened.before (rest.low later member), rest.apart⟩
  all := fun i low high some => by
    rcases Nat.lt_or_ge i position with early | late
    · rcases Nat.lt_or_ge run.last i with behind | inFront
      · exact absurd (silent i (opened.fillers i behind early)) some
      · exact ⟨run, mem_cons_self, low, inFront⟩
    · obtain ⟨later, member, inside⟩ := rest.all i late high some
      exact ⟨later, .tail _ member, inside⟩

end

theorem splitsInto_nil : SplitsInto f lists position position [] where
  each := by simp
  low := by simp
  high := by simp
  apart := .nil
  all := fun i low high => absurd high (by omega)

theorem SplitsInto.skip (rest : SplitsInto f lists (position + 1) stop runs)
    (none : lists position = []) : SplitsInto f lists position stop runs where
  each := rest.each
  low := fun run member => le_of_lt (rest.low run member)
  high := rest.high
  apart := rest.apart
  all := fun i low high some => by
    rcases Nat.eq_or_lt_of_le low with rfl | low
    · exact absurd none some
    · exact rest.all i low high some

theorem splitsInto_catchRuns (silent : ∀ i, (f.action i).isFiller = true → lists i = [])
    (count position : Nat) :
    SplitsInto f lists position (position + count)
        (catchRuns f ((range' position count).map fun i => (i, lists i)) none) ∧
      ∀ run : CatchRun, run.OpenTo f lists position →
        SplitsInto f lists run.first (position + count)
          (catchRuns f ((range' position count).map fun i => (i, lists i)) (some run)) := by
  induction count generalizing position with
  | zero => exact ⟨splitsInto_nil, fun run opened => opened.splitsInto silent splitsInto_nil le_rfl⟩
  | succ count ih =>
    obtain ⟨none, some⟩ := ih (position + 1)
    rw [show position + 1 + count = position + (count + 1) by omega] at none some
    simp only [range'_succ, map_cons, catchRuns]
    -- Where a run has ended, the position begins one when it has catches.
    have afresh : SplitsInto f lists position (position + (count + 1))
        (catchRuns f ((range' (position + 1) count).map fun i => (i, lists i))
          (if (lists position).isEmpty then .none
            else .some ⟨position, position, lists position⟩)) := by
      by_cases empty : lists position = []
      · rw [if_pos (by simp [empty])]
        exact none.skip empty
      · rw [if_neg (by simpa using empty)]
        exact some _ (CatchRun.openTo_single empty)
    refine ⟨afresh, fun run opened => ?_⟩
    split
    next filler => exact some run (opened.skip filler)
    · split
      next same => exact some _ (opened.grow same)
      · exact opened.splitsInto silent afresh (by omega)

def heldBy (runs : List CatchRun) (position : Nat) : List Catch :=
  runs.flatMap fun run => if run.first ≤ position ∧ position ≤ run.last then run.catches else []

theorem SplitsInto.heldBy_eq (splits : SplitsInto f lists first stop runs) (low : first ≤ position)
    (high : position < stop) (plain : (f.action position).isFiller = false) :
    heldBy runs position = lists position := by
  have nowhere : ∀ runs : List CatchRun, (∀ run ∈ runs,
      ¬ (run.first ≤ position ∧ position ≤ run.last)) → heldBy runs position = [] := by
    intro runs outside
    refine flatMap_eq_nil_iff.mpr fun run member => ?_
    rw [if_neg (outside run member)]
  by_cases empty : lists position = []
  · rw [empty]
    refine nowhere runs fun run member inside => ?_
    have is := splits.each run member
    rcases is.inside position inside.1 inside.2 with filler | same
    · rw [plain] at filler
      cases filler
    · exact is.catches (same.symm.trans empty)
  · obtain ⟨run, member, inside⟩ := splits.all position low high empty
    have same : lists position = run.catches := by
      rcases (splits.each run member).inside position inside.1 inside.2 with filler | same
      · rw [plain] at filler
        cases filler
      · exact same
    obtain ⟨before, after, rfl⟩ := append_of_mem member
    have apart := pairwise_append.mp splits.apart
    have behind := pairwise_cons.mp apart.2.1
    have before_nil := nowhere before fun other listed within => by
      have less := apart.2.2 other listed run mem_cons_self
      omega
    have after_nil := nowhere after fun other listed within => by
      have less := behind.1 other listed
      omega
    unfold heldBy at before_nil after_nil ⊢
    rw [flatMap_append, flatMap_cons, before_nil, after_nil, if_pos inside, same]
    simp

end Runs

end DexLift.Ir

/-!
# Labels around runs

Putting a label somewhere keeps the order of everything else. So the labels
around a run, put in one run after the other, stay in front of the statements
from the first of the run on and behind those up to its last, and the labels
around a later run stand behind those around an earlier one.
-/

namespace DexLift.Ir

open List

namespace Method

variable {front back : List StmtId} {place : StmtId} {index : Nat}

variable {m k n : Method} {id other : StmtId} {position : Nat}

/-! ## Order in a body -/

/-- A statement stands in front of another. -/
def Before (m : Method) (id other : StmtId) : Prop := [id, other].Sublist m.order.toList

theorem Before.mono (before : m.Before id other) (within : m.order.toList.Sublist n.order.toList) :
    n.Before id other :=
  before.trans within

theorem before_of_split (split : m.order.toList = front ++ back) (early : id ∈ front)
    (late : other ∈ back) : m.Before id other := by
  rw [Before, split]
  exact (singleton_sublist.mpr early).append (singleton_sublist.mpr late)

theorem Before.exists_positions (before : m.Before id other) :
    ∃ i j : Nat, i < j ∧ m.order.toList[i]? = some id ∧ m.order.toList[j]? = some other := by
  obtain ⟨place, same⟩ := sublist_iff_exists_orderEmbedding_getElem?_eq.mp before
  exact ⟨place 0, place 1, place.lt_iff_lt.mpr Nat.zero_lt_one, (same 0).symm, (same 1).symm⟩

theorem Tidy.before_iff (tidy : m.Tidy) {place : Nat} (here : m.order.toList[position]? = some id)
    (there : m.order.toList[place]? = some other) : m.Before id other ↔ position < place := by
  constructor
  · intro before
    obtain ⟨i, j, less, here', there'⟩ := before.exists_positions
    rwa [tidy.order_unique here here', tidy.order_unique there there']
  · intro less
    refine before_of_split (take_append_drop place m.order.toList).symm ?_ ?_
    · exact mem_of_getElem? (i := position) (by rw [getElem?_take_of_lt less, here])
    · exact mem_of_getElem? (i := 0) (by rw [getElem?_drop, Nat.add_zero, there])

theorem Before.asymm (before : m.Before id other) (tidy : m.Tidy) : ¬ m.Before other id := by
  obtain ⟨i, j, less, here, there⟩ := before.exists_positions
  rw [tidy.before_iff there here]
  omega

theorem Tidy.not_before_self (tidy : m.Tidy) : ¬ m.Before id id :=
  fun before => before.asymm tidy before

theorem Before.trans {third : StmtId} (before : m.Before id other) (tidy : m.Tidy)
    (later : m.Before other third) : m.Before id third := by
  obtain ⟨i, j, less, here, there⟩ := before.exists_positions
  obtain ⟨i', j', less', here', there'⟩ := later.exists_positions
  obtain rfl := tidy.order_unique there here'
  exact (tidy.before_iff here there').mpr (lt_trans less less')

section

variable (tidy : m.Tidy) (split : m.order.toList = front ++ place :: back)

include tidy split

theorem Tidy.mem_behind (behind : m.Before place id) : id ∈ back := by
  have absent : id ∉ front := fun early =>
    behind.asymm tidy (before_of_split split early mem_cons_self)
  have different : id ≠ place := by
    rintro rfl
    exact tidy.not_before_self behind
  have member : id ∈ m.order.toList := behind.subset (by simp)
  simpa [split, absent, different] using member

theorem Tidy.mem_in_front (inFront : m.Before id place) : id ∈ front := by
  have split' : m.order.toList = (front ++ [place]) ++ back := by rw [split, append_assoc]; rfl
  have absent : id ∉ back := fun late =>
    inFront.asymm tidy (before_of_split split' (by simp) late)
  have different : id ≠ place := by
    rintro rfl
    exact tidy.not_before_self inFront
  have member : id ∈ m.order.toList := inFront.subset (by simp)
  simpa [split, absent, different] using member

end

/-! ## Putting in a label -/

/-- The second method is the first one with a new statement, which places a label, between two
parts of the body. -/
structure Inserts (k n : Method) (l : Label) (front back : List StmtId) : Prop where
  source : k.Tidy
  tidy : n.Tidy
  split : k.order.toList = front ++ back
  order : n.order.toList = front ++ k.stmts.size :: back
  old : ∀ id < k.stmts.size, n.action id = k.action id
  new : n.action k.stmts.size = .label l
  size : n.stmts.size = k.stmts.size + 1
  labels : n.placed.size = k.placed.size
  traps : n.traps = k.traps
  places : ∀ other, other ≠ l → n.placedAt? other = k.placedAt? other

theorem Tidy.inserts (tidy : k.Tidy) (split : k.order.toList = front ++ back)
    (known : index < k.placed.size) (unplaced : k.placedAt? (.number index) = none) (s : Stmt)
    (label : s.action = .label (.number index)) :
    k.Inserts (notePlace { (k.newStmt s).2 with order := (front ++ k.stmts.size :: back).toArray }
      k.stmts.size) (.number index) front back := by
  have here : (k.newStmt s).2.action k.stmts.size = .label (.number index) := by
    rw [action_newStmt_self, label]
  have fresh : k.stmts.size ∉ k.order.toList := fun member =>
    absurd (tidy.made _ member) (lt_irrefl _)
  have tidy' := (tidy.newStmt s).insert_label split fresh (by simp) here known unplaced
  have places := @placedAt_notePlace
    { (k.newStmt s).2 with order := (front ++ k.stmts.size :: back).toArray } _ _ here known
  obtain ⟨placed, size, equal⟩ := notePlace_with
    { (k.newStmt s).2 with order := (front ++ k.stmts.size :: back).toArray } k.stmts.size
  refine ⟨tidy, tidy', split, by rw [equal], ?_, ?_, by rw [equal]; simp,
    by rwa [equal], by rw [equal]; rfl, ?_⟩
  · intro id old
    rw [equal]
    exact action_newStmt_of_lt old s
  · rwa [equal]
  · intro other different
    rw [places, if_neg different]
    rfl

section

variable (tidy : k.Tidy) (split : k.order.toList = front ++ place :: back)
  (known : index < k.placed.size) (unplaced : k.placedAt? (.number index) = none)

include tidy split known unplaced

theorem Tidy.inserts_addBefore :
    k.Inserts (k.addBefore place { action := .label (.number index) }) (.number index) front
      (place :: back) := by
  have unfolded := insertBefore_eq (tidy.newStmt { action := .label (.number index) }) split
    k.stmts.size
  have inserts := tidy.inserts split known unplaced { action := .label (.number index) } rfl
  rwa [← unfolded] at inserts

theorem Tidy.inserts_addAfter :
    k.Inserts (k.addAfter place { action := .label (.number index) }) (.number index)
      (front ++ [place]) back := by
  have unfolded := insertAfter_eq (tidy.newStmt { action := .label (.number index) }) split
    k.stmts.size
  have split' : k.order.toList = (front ++ [place]) ++ back := by simpa using split
  have inserts := tidy.inserts split' known unplaced { action := .label (.number index) } rfl
  have moved : front ++ place :: k.stmts.size :: back =
      front ++ [place] ++ k.stmts.size :: back := by simp
  rw [moved] at unfolded
  rwa [← unfolded] at inserts

end

section Inserts

variable {l : Label} {front back : List StmtId}

theorem Inserts.within (inserts : k.Inserts n l front back) :
    k.order.toList.Sublist n.order.toList := by
  rw [inserts.split, inserts.order]
  exact (sublist_cons_self _ _).append_left front

theorem Inserts.mem_order (inserts : k.Inserts n l front back) :
    id ∈ n.order.toList ↔ id = k.stmts.size ∨ id ∈ k.order.toList := by
  rw [inserts.order, inserts.split]
  simp only [mem_append, mem_cons]
  tauto

end Inserts

/-! ## More labels -/

/-- The second method is the first one with more labels, all of them new. -/
structure Widens (m k : Method) : Prop where
  tidy : k.Tidy
  size : m.stmts.size ≤ k.stmts.size
  labels : m.placed.size ≤ k.placed.size
  action : ∀ id < m.stmts.size, k.action id = m.action id
  order : k.order.toList.filter (· < m.stmts.size) = m.order.toList
  new : ∀ id ∈ k.order.toList, m.stmts.size ≤ id →
    ∃ index, m.placed.size ≤ index ∧ k.action id = .label (.number index)
  traps : k.traps = m.traps

theorem Tidy.widens (tidy : m.Tidy) : m.Widens m where
  tidy := tidy
  size := le_rfl
  labels := le_rfl
  action := fun _ _ => rfl
  order := filter_eq_self.mpr fun id member => by simpa using tidy.made id member
  new := fun id member bound => absurd (tidy.made id member) (Nat.not_lt.mpr bound)
  traps := rfl

theorem Widens.newLabel (widens : m.Widens k) : m.Widens k.newLabel.2 where
  tidy := widens.tidy.newLabel
  size := widens.size
  labels := by
    rw [newLabel_size]
    exact Nat.le_succ_of_le widens.labels
  action := widens.action
  order := widens.order
  new := widens.new
  traps := widens.traps

theorem Widens.insert (widens : m.Widens k) (bound : m.placed.size ≤ index)
    (inserts : k.Inserts n (.number index) front back) :
    m.Widens n where
  tidy := inserts.tidy
  size := by
    rw [inserts.size]
    exact Nat.le_succ_of_le widens.size
  labels := inserts.labels ▸ widens.labels
  action := fun id old => by
    rw [inserts.old id (lt_of_lt_of_le old widens.size), widens.action id old]
  order := by
    rw [inserts.order, filter_append,
      filter_cons_of_neg (by simpa using Nat.le_of_lt_succ (Nat.lt_succ_of_le widens.size)),
      ← filter_append, ← inserts.split, widens.order]
  new := fun id member large => by
    rcases inserts.mem_order.mp member with rfl | old
    · exact ⟨index, bound, inserts.new⟩
    · rw [inserts.old id (inserts.source.made id old)]
      exact widens.new id old large
  traps := inserts.traps.trans widens.traps

theorem Widens.within (widens : m.Widens k) : m.order.toList.Sublist k.order.toList := by
  rw [← widens.order]
  exact filter_sublist

/-! ## Marked runs -/

end Method

/-- A run with the labels around it and the statements that place them. -/
structure Mark where
  run : CatchRun
  start : Label
  stop : Label
  opening : StmtId
  closing : StmtId

/-- The entries of a run in the table. -/
def Mark.traps (x : Mark) : List Trap :=
  x.run.catches.map fun c =>
    { start := x.start, stop := x.stop, handler := c.handler, type := c.type }

structure Mark.Encloses (x : Mark) (m k : Method) : Prop where
  made : x.opening < k.stmts.size ∧ x.closing < k.stmts.size
  opens : k.action x.opening = .label x.start
  closes : k.action x.closing = .label x.stop
  first : ∀ i id, m.order.toList[i]? = some id →
    (x.run.first ≤ i → k.Before x.opening id) ∧ (i < x.run.first → k.Before id x.opening)
  last : ∀ i id, m.order.toList[i]? = some id →
    (i ≤ x.run.last → k.Before id x.closing) ∧ (x.run.last < i → k.Before x.closing id)

namespace Method

variable {l : Label} {front back : List StmtId} {place : StmtId}

variable {m k n : Method} {id other : StmtId} {position : Nat}

theorem Inserts.encloses {x : Mark} (inserts : k.Inserts n l front back) (encloses : x.Encloses m k) :
    x.Encloses m n where
  made := by
    rw [inserts.size]
    exact encloses.made.imp Nat.lt_succ_of_lt Nat.lt_succ_of_lt
  opens := (inserts.old _ encloses.made.1).trans encloses.opens
  closes := (inserts.old _ encloses.made.2).trans encloses.closes
  first := fun i id here => (encloses.first i id here).imp
    (fun before le => (before le).mono inserts.within)
    fun before less => (before less).mono inserts.within
  last := fun i id here => (encloses.last i id here).imp
    (fun before le => (before le).mono inserts.within)
    fun before less => (before less).mono inserts.within

theorem Widens.before_opening (tidy : m.Tidy) (widens : m.Widens k)
    (inserts : k.Inserts n l front (place :: back)) (here : m.order.toList[position]? = some place)
    (i : Nat) (there : m.order.toList[i]? = some id) :
    (position ≤ i → n.Before k.stmts.size id) ∧ (i < position → n.Before id k.stmts.size) := by
  have split' : n.order.toList = (front ++ [k.stmts.size]) ++ (place :: back) := by
    rw [inserts.order, append_assoc]
    rfl
  constructor
  · intro le
    refine before_of_split split' (by simp) ?_
    rcases Nat.eq_or_lt_of_le le with rfl | less
    · rw [Option.some.inj (here.symm.trans there)]
      exact mem_cons_self
    · have behind := ((tidy.before_iff here there).mpr less).mono widens.within
      exact .tail _ (inserts.source.mem_behind inserts.split behind)
  · intro less
    have inFront := ((tidy.before_iff there here).mpr less).mono widens.within
    exact before_of_split inserts.order (inserts.source.mem_in_front inserts.split inFront)
      mem_cons_self

theorem Widens.before_closing (tidy : m.Tidy) (widens : m.Widens k)
    (inserts : k.Inserts n l (front ++ [place]) back)
    (here : m.order.toList[position]? = some place) (i : Nat) (there : m.order.toList[i]? = some id) :
    (i ≤ position → n.Before id k.stmts.size) ∧ (position < i → n.Before k.stmts.size id) := by
  have split : k.order.toList = front ++ place :: back := by
    rw [inserts.split, append_assoc]
    rfl
  have split' : n.order.toList = (front ++ [place] ++ [k.stmts.size]) ++ back := by
    rw [inserts.order]
    simp
  constructor
  · intro le
    refine before_of_split inserts.order ?_ mem_cons_self
    rcases Nat.eq_or_lt_of_le le with rfl | less
    · rw [Option.some.inj (there.symm.trans here)]
      simp
    · have inFront := ((tidy.before_iff there here).mpr less).mono widens.within
      exact mem_append_left _ (inserts.source.mem_in_front split inFront)
  · intro less
    have behind := ((tidy.before_iff here there).mpr less).mono widens.within
    exact before_of_split split' (by simp) (inserts.source.mem_behind split behind)

/-- Labels stand around some runs, one run behind the other, and the table has their entries. -/
structure Marked (m k : Method) (marks : List Mark) (traps : List Trap) : Prop where
  widens : m.Widens k
  table : traps = marks.flatMap Mark.traps
  each : ∀ x ∈ marks, x.Encloses m k
  apart : marks.Pairwise fun x y => k.Before x.closing y.opening

variable {marks : List Mark}

theorem Marked.addRun {traps : List Trap} (tidy : m.Tidy) (marked : m.Marked k marks traps)
    {run : CatchRun} (le : run.first ≤ run.last) (inside : run.last < m.order.toList.length)
    (later : ∀ x ∈ marks, x.run.last < run.first) :
    ∃ x : Mark, x.run = run ∧
      m.Marked (Method.addRun (Flow.ofMethod m) (k, traps) run).1 (marks ++ [x])
        (Method.addRun (Flow.ofMethod m) (k, traps) run).2 := by
  obtain ⟨placeFirst, hereFirst⟩ : ∃ id, m.order.toList[run.first]? = some id :=
    ⟨_, getElem?_eq_getElem (Nat.lt_of_le_of_lt le inside)⟩
  obtain ⟨placeLast, hereLast⟩ : ∃ id, m.order.toList[run.last]? = some id :=
    ⟨_, getElem?_eq_getElem inside⟩
  have place : ∀ {i : Nat} {id : StmtId}, m.order.toList[i]? = some id →
      (((Flow.ofMethod m).order[i]?).map Prod.fst).getD 0 = id := by
    intro i id here
    have listed : (Flow.ofMethod m).order[i]? = some (id, m.stmt id) := by
      simp only [Array.getElem?_toList] at here
      simp [Flow.ofMethod, body, here]
    rw [listed]
    rfl
  -- The two labels are made first.
  have widens := marked.widens.newLabel.newLabel
  have free : ∀ index, k.placed.size ≤ index →
      k.newLabel.2.newLabel.2.placedAt? (.number index) = none := by
    intro index large
    rw [placedAt_newLabel, placedAt_newLabel]
    simp [placedAt?, large]
  -- One goes in front of the first statement of the run,
  obtain ⟨front, back, split⟩ :=
    append_of_mem (widens.within.subset (mem_of_getElem? hereFirst))
  have opening := widens.tidy.inserts_addBefore split
    (show k.placed.size < k.newLabel.2.newLabel.2.placed.size by
      rw [newLabel_size, newLabel_size]; omega) (free _ le_rfl)
  have widens' := widens.insert marked.widens.labels opening
  -- and one behind its last statement.
  obtain ⟨front', back', split'⟩ :=
    append_of_mem (widens'.within.subset (mem_of_getElem? hereLast))
  have unplaced : (k.newLabel.2.newLabel.2.addBefore placeFirst
      { action := .label (.number k.placed.size) }).placedAt? (.number (k.placed.size + 1)) =
        none := by
    rw [opening.places _ (by simp)]
    exact free _ (Nat.le_succ _)
  have closing := widens'.tidy.inserts_addAfter split'
    (by rw [opening.labels]; simp) unplaced
  have unfolded : Method.addRun (Flow.ofMethod m) (k, traps) run =
      ((k.newLabel.2.newLabel.2.addBefore placeFirst
        { action := .label (.number k.placed.size) }).addAfter placeLast
          { action := .label (.number (k.placed.size + 1)) },
        traps ++ run.catches.map fun c =>
          { start := .number k.placed.size, stop := .number (k.placed.size + 1)
            handler := c.handler, type := c.type }) := by
    simp only [Method.addRun, place hereFirst, place hereLast, newLabel_fst, newLabel_size]
  rw [unfolded]
  have size : (k.newLabel.2.newLabel.2.addBefore placeFirst
      { action := .label (.number k.placed.size) }).stmts.size = k.stmts.size + 1 := opening.size
  refine ⟨⟨run, .number k.placed.size, .number (k.placed.size + 1), k.stmts.size,
    k.stmts.size + 1⟩, rfl, ?_, ?_, ?_, ?_⟩
  · exact widens'.insert (Nat.le_succ_of_le marked.widens.labels) closing
  · rw [marked.table, flatMap_append]
    simp [Mark.traps]
  · intro x member
    rcases mem_append.mp member with old | new
    · have before := marked.each x old
      have encloses : x.Encloses m k.newLabel.2.newLabel.2 :=
        ⟨before.made, before.opens, before.closes, before.first, before.last⟩
      exact closing.encloses (opening.encloses encloses)
    · rw [mem_singleton.mp new]
      refine ⟨?_, ?_, ?_, ?_, ?_⟩
      · rw [closing.size, size]
        exact ⟨Nat.lt_succ_of_lt (Nat.lt_succ_self _), Nat.lt_succ_self _⟩
      · rw [closing.old _ (by rw [size]; exact Nat.lt_succ_self _)]
        exact opening.new
      · rw [← size]
        exact closing.new
      · intro i id here
        exact (widens.before_opening tidy opening hereFirst i here).imp
          (fun before le => (before le).mono closing.within)
          fun before less => (before less).mono closing.within
      · rw [← size]
        exact fun i id here => widens'.before_closing tidy closing hereLast i here
  · refine pairwise_append.mpr ⟨?_, pairwise_singleton .., ?_⟩
    · exact marked.apart.imp fun before => (before.mono opening.within).mono closing.within
    · intro x old y new
      rw [mem_singleton.mp new]
      have inFront := ((marked.each x old).last _ _ hereFirst).2 (later x old)
      exact (before_of_split opening.order
        (widens.tidy.mem_in_front split inFront) mem_cons_self).mono closing.within

theorem Marked.addRuns (tidy : m.Tidy) {runs : List CatchRun} {traps : List Trap}
    (marked : m.Marked k marks traps) (le : ∀ run ∈ runs, run.first ≤ run.last)
    (inside : ∀ run ∈ runs, run.last < m.order.toList.length)
    (apart : (marks.map Mark.run ++ runs).Pairwise fun run later => run.last < later.first) :
    ∃ marks', marks'.map Mark.run = marks.map Mark.run ++ runs ∧
      m.Marked (runs.foldl (Method.addRun (Flow.ofMethod m)) (k, traps)).1 marks'
        (runs.foldl (Method.addRun (Flow.ofMethod m)) (k, traps)).2 := by
  induction runs generalizing k marks traps with
  | nil => exact ⟨marks, (append_nil _).symm, marked⟩
  | cons run runs ih =>
    have later : ∀ x ∈ marks, x.run.last < run.first := fun x member =>
      (pairwise_append.mp apart).2.2 x.run (mem_map_of_mem member) run mem_cons_self
    obtain ⟨x, same, marked'⟩ := marked.addRun tidy (le run mem_cons_self)
      (inside run mem_cons_self) later
    have names : (marks ++ [x]).map Mark.run ++ runs = marks.map Mark.run ++ run :: runs := by
      simp [same]
    obtain ⟨marks', all, final⟩ := ih marked' (fun other member => le other (.tail _ member))
      (fun other member => inside other (.tail _ member)) (names ▸ apart)
    exact ⟨marks', all.trans names, final⟩

end Method

end DexLift.Ir
