import DexLift.Proofs.Ir.Landing

/-!
# Joins and the edges into their blocks

A join belongs to the label in front of it, and has operands for the ways into
the block of that label. An edge is named by the block it comes from: control
has run on from the label of the block to the statement the edge leaves. The
operands of a join fit when there is exactly one for each name of an edge.
-/

namespace DexLift.Ir

open List Ir.Action

def PhiArg.way (a : PhiArg) : Label × Bool := (a.pred, a.exceptional)

namespace Method

variable {header : Nat} {exceptional : Bool}

variable {m : Method} {position : Nat} {l : Label} {a : Action}

/-! ## Blocks -/

theorem opens_iff : m.opens l = true ↔
    (∃ a ∈ m.actions, l ∈ a.targets ∨ l ∈ a.phiArgs.map PhiArg.pred) ∨
      (∃ t ∈ m.traps, t.handler = l) ∨ l ∈ m.phiLabels := by
  rw [opens, contains_iff_mem, EdgeTable.openers, mem_append, mem_append,
    mem_flatMap, mem_map, or_assoc]
  simp only [mem_append]

theorem standing_succ (found : m.actions[position]? = some a) :
    m.standing (position + 1) = (m.standing position).pass m.opens a :=
  standing_next (from_of_get found)

@[simp] theorem standing_zero (m : Method) : m.standing 0 = ⟨.nowhere, false⟩ := rfl

theorem blockAt_eq_standing (m : Method) (position : Nat) :
    m.blockAt position = (m.standing (position + 1)).block := rfl

theorem pass_of_plain {opens : Label → Bool} (s : Standing) (plain : a.label? = none) :
    s.pass opens a = if s.ended then ⟨.nowhere, true⟩ else ⟨s.block, a.endsBlock⟩ := by
  cases a with
  | label => cases plain
  | _ => rfl

theorem exists_of_standing (tidy : m.Tidy) (le : position ≤ m.actions.length)
    (block : (m.standing position).block = l) (named : l ≠ .nowhere) :
    m.opens l = true ∧ ∃ start, m.find? l = some start ∧ start < position ∧
      ∀ i other, start < i → i < position → m.actions[i]? = some (.label other) →
        m.opens other = false := by
  induction position with
  | zero => exact absurd block.symm named
  | succ position ih =>
    have found := getElem?_eq_getElem (Nat.lt_of_succ_le le)
    rw [standing_succ found] at block
    have before : (m.standing position).block = l →
        (∀ other, m.actions[position]? = some (.label other) → m.opens other = false) →
        m.opens l = true ∧ ∃ start, m.find? l = some start ∧ start < position + 1 ∧
          ∀ i other, start < i → i < position + 1 → m.actions[i]? = some (.label other) →
            m.opens other = false := by
      intro same closed
      obtain ⟨opens, start, at_, less, none⟩ := ih (Nat.le_of_succ_le le) same
      refine ⟨opens, start, at_, Nat.lt_succ_of_lt less, ?_⟩
      intro i other low high label
      rcases Nat.lt_succ_iff_lt_or_eq.mp high with high | rfl
      · exact none i other low high label
      · exact closed other label
    cases label : m.actions[position].label? with
    | none =>
      rw [pass_of_plain _ label] at block
      split at block
      · exact absurd block.symm named
      · refine before block fun other same => ?_
        rw [found] at same
        rw [Option.some.inj same] at label
        cases label
    | some other =>
      rw [label?_eq_some] at label
      rw [label] at block found
      simp only [Standing.pass] at block
      split at block
      next opens =>
        dsimp only at block
        subst block
        refine ⟨opens, position, tidy.find?_eq_some.mpr found, Nat.lt_succ_self _, ?_⟩
        intro i other low high
        omega
      next closed =>
        refine before block fun l' same => ?_
        rw [found] at same
        cases same
        simpa using closed

def RunsOn (m : Method) (position : Nat) : Prop :=
  ∃ a, m.actions[position]? = some a ∧ a.fallsThrough = true

structure InBlock (m : Method) (l : Label) (position : Nat) : Prop where
  block : m.blockAt position = l
  runs : ∃ start, m.find? l = some start ∧ start ≤ position ∧
    ∀ i, start ≤ i → i < position → m.RunsOn i

theorem Tidy.ne_nowhere (tidy : m.Tidy) (found : m.find? l = some position) : l ≠ .nowhere := by
  rintro rfl
  obtain ⟨id, here, label⟩ := exists_order (tidy.find?_eq_some.mp found)
  cases tidy.placed_of_label id (mem_of_getElem? here) _ label

section

variable (tidy : m.Tidy) (inside : m.InBlock l position) (lt : position < m.actions.length)

include tidy inside lt

theorem InBlock.opens : m.opens l = true := by
  obtain ⟨start, found, -⟩ := inside.runs
  exact (exists_of_standing tidy lt inside.block (tidy.ne_nowhere found)).1

theorem InBlock.closed {start : Nat} (found : m.find? l = some start) {i : Nat}
    {other : Label} (low : start < i) (high : i ≤ position)
    (label : m.actions[i]? = some (.label other)) : m.opens other = false := by
  obtain ⟨-, start', found', -, none⟩ :=
    exists_of_standing tidy lt inside.block (tidy.ne_nowhere found)
  obtain rfl := Option.some.inj (found.symm.trans found')
  exact none i other low (Nat.lt_succ_of_le high) label

end

/-! ## Edges into a block -/

def edgesOf (m : Method) (exceptional : Bool) (position : Nat) : List Nat :=
  if exceptional then (Flow.ofMethod m).exSuccsOf position else (Flow.ofMethod m).succsOf position

/-- An edge from the block of a label leads to a position; only some sources count. -/
def EdgeFrom (m : Method) (counts : Nat → Prop) (l : Label) (exceptional : Bool) (header : Nat) :
    Prop :=
  ∃ source, counts source ∧ m.InBlock l source ∧ header ∈ m.edgesOf exceptional source

/-- The operands of a join fit the edges into its block: every edge comes from a block with a label,
and for each such block, and each of the two kinds of edges, there is one operand if there is an
edge and none otherwise. -/
structure Fits (m : Method) (counts : Nat → Prop) (header : Nat) (args : List PhiArg) : Prop where
  named : ∀ source exceptional, counts source → header ∈ m.edgesOf exceptional source →
    ∃ l, m.InBlock l source
  once : (args.map PhiArg.way).Nodup
  ways : ∀ l exceptional,
    (l, exceptional) ∈ args.map PhiArg.way ↔ m.EdgeFrom counts l exceptional header

def headerOf (m : Method) (position : Nat) : Option Nat :=
  (m.blockLabels[position]?).bind m.find?

def JoinsFit (m : Method) (counts : Nat → Prop) : Prop :=
  ∀ position target args header, m.actions[position]? = some (.phi target args) →
    m.headerOf position = some header → m.Fits counts header args

/-- A statement transfers control to a label: by throwing, or by a branch. -/
def Transfers (m : Method) (exceptional : Bool) (l : Label) (position : Nat) : Prop :=
  ∃ a, m.actions[position]? = some a ∧
    if exceptional then
      a.canThrow = true ∧ ∃ t ∈ m.traps, m.covered t position = true ∧ t.handler = l
    else l ∈ a.targets

theorem Tidy.mem_edgesOf (tidy : m.Tidy) (label : m.actions[header]? = some (.label l)) :
    header ∈ m.edgesOf exceptional position ↔ m.Transfers exceptional l position ∨
      (exceptional = false ∧ position + 1 = header ∧ m.RunsOn position) := by
  have goal : ∀ other, m.find? other = some header ↔ other = l := by
    intro other
    rw [tidy.find?_eq_some, label]
    simp [eq_comm]
  have inside := lt_of_get label
  cases exceptional with
  | true => simp [edgesOf, tidy.mem_exSuccsOf, goal, Transfers]
  | false =>
    simp only [edgesOf, Bool.false_eq_true, if_false, tidy.mem_succsOf, goal, Transfers,
      exists_eq_right, true_and, RunsOn]
    constructor
    · rintro ⟨a, found, ⟨falls, -, same⟩ | listed⟩
      · exact .inr ⟨same.symm, a, found, falls⟩
      · exact .inl ⟨a, found, listed⟩
    · rintro (⟨a, found, listed⟩ | ⟨same, a, found, falls⟩)
      · exact ⟨a, found, .inr listed⟩
      · exact ⟨a, found, .inl ⟨falls, same ▸ inside, same.symm⟩⟩

theorem Transfers.plain (transfers : m.Transfers exceptional l position)
    (found : m.actions[position]? = some a) : a.label? = none := by
  obtain ⟨b, same, way⟩ := transfers
  obtain rfl := Option.some.inj (found.symm.trans same)
  cases a with
  | label => cases exceptional <;> simp [canThrow, targets] at way
  | _ => rfl

/-! ## Headers -/

def lastLabel (m : Method) (position : Nat) : Label :=
  (m.actions.take position).foldl (fun l a => a.label?.getD l) .nowhere

theorem lastLabel_succ (found : m.actions[position]? = some a) :
    m.lastLabel (position + 1) = a.label?.getD (m.lastLabel position) := by
  rw [lastLabel, take_add_one, found, foldl_append]
  rfl

theorem phiStep_spec (state : Label × List Label) (a : Action) :
    (phiStep state a).1 = a.label?.getD state.1 ∧
      ∀ l, l ∈ (phiStep state a).2 ↔
        l ∈ state.2 ∨ (a.isPhi = true ∧ l ≠ .nowhere ∧ state.1 = l) := by
  obtain ⟨current, found⟩ := state
  cases a with
  | phi target args =>
    simp only [phiStep, label?, isPhi, Option.getD_none, true_and]
    split
    next known =>
      refine ⟨rfl, fun l => ⟨.inl, ?_⟩⟩
      rintro (old | ⟨named, rfl⟩)
      · exact old
      · rcases known with none | head
        · exact absurd none named
        · exact mem_of_mem_head? head
    next fresh =>
      rw [not_or] at fresh
      refine ⟨rfl, fun l => ?_⟩
      rw [mem_cons]
      constructor
      · rintro (rfl | old)
        · exact .inr ⟨fresh.1, rfl⟩
        · exact .inl old
      · rintro (old | ⟨-, rfl⟩)
        · exact .inr old
        · exact .inl rfl
  | _ => simp [phiStep, label?, isPhi]

theorem mem_phiLabels : l ∈ m.phiLabels ↔ l ≠ .nowhere ∧
    ∃ position target args, m.actions[position]? = some (.phi target args) ∧
      m.lastLabel position = l := by
  suffices prefixes : ∀ count ≤ m.actions.length,
      ((m.actions.take count).foldl phiStep (.nowhere, [])).1 = m.lastLabel count ∧
        (l ∈ ((m.actions.take count).foldl phiStep (.nowhere, [])).2 ↔ l ≠ .nowhere ∧
          ∃ position target args, position < count ∧
            m.actions[position]? = some (.phi target args) ∧ m.lastLabel position = l) by
    have all := (prefixes m.actions.length le_rfl).2
    rw [take_length] at all
    rw [Method.phiLabels, mem_reverse, all]
    refine and_congr_right fun _ => exists_congr fun position => ?_
    constructor
    · rintro ⟨target, args, -, rest⟩
      exact ⟨target, args, rest⟩
    · rintro ⟨target, args, found, rest⟩
      exact ⟨target, args, lt_of_get found, found, rest⟩
  intro count le
  induction count with
  | zero => simp [lastLabel]
  | succ count ih =>
    obtain ⟨current, found⟩ := ih (Nat.le_of_succ_le le)
    have here := getElem?_eq_getElem (Nat.lt_of_succ_le le)
    have step := phiStep_spec ((m.actions.take count).foldl phiStep (.nowhere, [])) m.actions[count]
    have unfolded : (m.actions.take (count + 1)).foldl phiStep (.nowhere, []) =
        phiStep ((m.actions.take count).foldl phiStep (.nowhere, [])) m.actions[count] := by
      rw [take_add_one, here, foldl_append]
      rfl
    rw [unfolded, lastLabel_succ here, step.1, current, step.2, found, current]
    refine ⟨rfl, ?_⟩
    constructor
    · rintro (⟨named, position, target, args, less, rest⟩ | ⟨single, named, same⟩)
      · exact ⟨named, position, target, args, Nat.lt_succ_of_lt less, rest⟩
      · cases action : m.actions[count] with
        | phi target args =>
          exact ⟨named, count, target, args, Nat.lt_succ_self _, by rw [here, action], same⟩
        | _ =>
          rw [action] at single
          cases single
    · rintro ⟨named, position, target, args, less, at_, same⟩
      rcases Nat.lt_succ_iff_lt_or_eq.mp less with less | rfl
      · exact .inl ⟨named, position, target, args, less, at_, same⟩
      · rw [here] at at_
        rw [Option.some.inj at_]
        exact .inr ⟨rfl, named, same⟩

theorem opens_of_phiLabel (listed : l ∈ m.phiLabels) : m.opens l = true := by
  rw [opens, contains_iff_mem]
  exact mem_append_right _ listed

/-- Only plain statements that do not end a block stand between two positions. -/
def Straight (m : Method) (first last : Nat) : Prop :=
  ∀ i a, first < i → i < last → m.actions[i]? = some a → a.label? = none ∧ a.endsBlock = false

theorem getElem?_blockLabelsFrom {actions : List Action} {current : Label}
    (found : actions[position]? = some a) (plain : a.label? = none) (named : l ≠ .nowhere) :
    (blockLabelsFrom current actions)[position]? = some l ↔
      (current = l ∧ ∀ i b, i < position → actions[i]? = some b →
        b.label? = none ∧ b.endsBlock = false) ∨
      ∃ start < position, actions[start]? = some (.label l) ∧
        ∀ i b, start < i → i < position → actions[i]? = some b →
          b.label? = none ∧ b.endsBlock = false := by
  induction actions generalizing current position with
  | nil => simp at found
  | cons first rest ih =>
    cases position with
    | zero =>
      obtain rfl : first = a := by simpa using found
      simp [blockLabelsFrom, plain]
    | succ position =>
      rw [getElem?_cons_succ] at found
      rw [blockLabelsFrom, getElem?_cons_succ, ih found]
      constructor
      · rintro (⟨same, straight⟩ | ⟨start, less, label, straight⟩)
        · split at same
          · exact absurd same.symm named
          next goesOn =>
            cases label : first.label? with
            | none =>
              rw [label] at same
              refine .inl ⟨same, ?_⟩
              intro i b less here
              cases i with
              | zero =>
                obtain rfl : first = b := by simpa using here
                exact ⟨label, by simpa using goesOn⟩
              | succ i => exact straight i b (by omega) (by simpa using here)
            | some other =>
              rw [label] at same
              obtain rfl : other = l := same
              refine .inr ⟨0, by omega, by simp [label?_eq_some.mp label], ?_⟩
              intro i b less high here
              cases i with
              | zero => omega
              | succ i => exact straight i b (by omega) (by simpa using here)
        · refine .inr ⟨start + 1, by omega, by simpa using label, ?_⟩
          intro i b low high here
          cases i with
          | zero => omega
          | succ i => exact straight i b (by omega) (by omega) (by simpa using here)
      · rintro (⟨same, straight⟩ | ⟨start, less, label, straight⟩)
        · obtain ⟨isPlain, goesOn⟩ := straight 0 first (by omega) rfl
          refine .inl ⟨by simp [isPlain, goesOn, same], ?_⟩
          exact fun i b less here => straight (i + 1) b (by omega) (by simpa using here)
        · cases start with
          | zero =>
            obtain rfl : first = .label l := by simpa using label
            refine .inl ⟨by simp [label?, endsBlock, branches, fallsThrough], ?_⟩
            exact fun i b less here => straight (i + 1) b (by omega) (by omega) (by simpa using here)
          | succ start =>
            refine .inr ⟨start, by omega, by simpa using label, ?_⟩
            exact fun i b low high here =>
              straight (i + 1) b (by omega) (by omega) (by simpa using here)

theorem Tidy.length_blockLabels (tidy : m.Tidy) : m.blockLabels.length = m.order.toList.length := by
  have from_ : ∀ (actions : List Action) (current : Label),
      (blockLabelsFrom current actions).length = actions.length := by
    intro actions
    induction actions with
    | nil => exact fun _ => rfl
    | cons a rest ih =>
      intro current
      rw [blockLabelsFrom, length_cons, length_cons, ih]
  rw [blockLabels, if_pos (by simp [tidy.plain]), from_, length_actions, Array.length_toList]

theorem Tidy.headerOf_eq_some (tidy : m.Tidy) (found : m.actions[position]? = some a)
    (plain : a.label? = none) :
    m.headerOf position = some header ↔ header < position ∧
      (∃ l, m.actions[header]? = some (.label l)) ∧ m.Straight header position := by
  have plainly : m.blockLabels = blockLabelsFrom .nowhere m.actions := by
    rw [blockLabels, if_pos (by simp [tidy.plain])]
  have spec : ∀ l, l ≠ .nowhere → (m.blockLabels[position]? = some l ↔
      ∃ start < position, m.actions[start]? = some (.label l) ∧ m.Straight start position) := by
    intro l named
    rw [plainly, getElem?_blockLabelsFrom found plain named]
    constructor
    · rintro (⟨same, -⟩ | there)
      · exact absurd same.symm named
      · exact there
    · exact .inr
  rw [headerOf, Option.bind_eq_some_iff]
  constructor
  · rintro ⟨l, block, place⟩
    obtain ⟨start, less, label, straight⟩ := (spec l (tidy.ne_nowhere place)).mp block
    obtain rfl := Option.some.inj (place.symm.trans (tidy.find?_eq_some.mpr label))
    exact ⟨less, ⟨l, label⟩, straight⟩
  · rintro ⟨less, ⟨l, label⟩, straight⟩
    have place := tidy.find?_eq_some.mpr label
    exact ⟨l, (spec l (tidy.ne_nowhere place)).mpr ⟨header, less, label, straight⟩, place⟩

theorem lastLabel_of_straight (label : m.actions[header]? = some (.label l))
    (less : header < position) (le : position ≤ m.actions.length)
    (labels : ∀ i other, header < i → i < position → m.actions[i]? ≠ some (.label other)) :
    m.lastLabel position = l := by
  obtain ⟨count, rfl⟩ := Nat.exists_eq_add_of_lt less
  induction count with
  | zero => exact lastLabel_succ label
  | succ count ih =>
    have before := ih (by omega) (by omega) fun i other low high => labels i other low (by omega)
    have found := getElem?_eq_getElem (l := m.actions) (i := header + count + 1) (by omega)
    have step := lastLabel_succ found
    have plain : m.actions[header + count + 1].label? = none := by
      refine Option.eq_none_iff_forall_ne_some.mpr fun other isLabel => ?_
      rw [label?_eq_some.mp isLabel] at found
      exact labels _ other (by omega) (by omega) found
    rwa [plain, Option.getD_none, before] at step

theorem exists_of_lastLabel (le : position ≤ m.actions.length) :
    (m.lastLabel position = .nowhere ∧
        ∀ i other, i < position → m.actions[i]? ≠ some (.label other)) ∨
      ∃ start < position, m.actions[start]? = some (.label (m.lastLabel position)) ∧
        ∀ i other, start < i → i < position → m.actions[i]? ≠ some (.label other) := by
  induction position with
  | zero => exact .inl ⟨rfl, fun i other less => absurd less (Nat.not_lt_zero i)⟩
  | succ position ih =>
    have found := getElem?_eq_getElem (Nat.lt_of_succ_le le)
    rw [lastLabel_succ found]
    cases label : m.actions[position].label? with
    | some l =>
      rw [label?_eq_some] at label
      refine .inr ⟨position, Nat.lt_succ_self _, by rw [found, label]; rfl, ?_⟩
      intro i other low high
      omega
    | none =>
      have plain : ∀ other, m.actions[position]? ≠ some (.label other) := by
        intro other same
        rw [found] at same
        rw [Option.some.inj same] at label
        cases label
      rw [Option.getD_none]
      rcases ih (Nat.le_of_succ_le le) with ⟨same, none⟩ | ⟨start, less, at_, none⟩
      · refine .inl ⟨same, fun i other less => ?_⟩
        rcases Nat.lt_succ_iff_lt_or_eq.mp less with less | rfl
        · exact none i other less
        · exact plain other
      · refine .inr ⟨start, Nat.lt_succ_of_lt less, at_, fun i other low high => ?_⟩
        rcases Nat.lt_succ_iff_lt_or_eq.mp high with high | rfl
        · exact none i other low high
        · exact plain other

theorem Tidy.phiLabel_of_header (tidy : m.Tidy) {target : LocalId} {args : List PhiArg}
    (found : m.actions[position]? = some (.phi target args))
    (block : m.headerOf position = some header) :
    ∃ l ∈ m.phiLabels, m.actions[header]? = some (.label l) := by
  obtain ⟨less, ⟨l, label⟩, straight⟩ := (tidy.headerOf_eq_some found rfl).mp block
  refine ⟨l, mem_phiLabels.mpr ⟨tidy.ne_nowhere (tidy.find?_eq_some.mpr label), position, target,
    args, found, ?_⟩, label⟩
  refine lastLabel_of_straight label less (le_of_lt (lt_of_get found)) ?_
  intro i other low high isLabel
  cases (straight i _ low high isLabel).1

/-!
## Deciding what a body is like

A body has finitely many positions and a table of labels, so that being tidy,
belonging to a block and having joins that fit can be computed.
-/

variable (m : Method)

theorem tidy_iff : m.Tidy ↔ m.chain.isNone = true ∧ m.order.toList.Nodup ∧
    (∀ id ∈ m.order.toList, id < m.stmts.size ∧
      ∀ l ∈ (m.action id).label?, m.placedAt? l = some id) ∧
    ∀ index < m.placed.size, ∀ id ∈ m.placedAt? (.number index),
      id ∈ m.order.toList ∧ (m.action id).label? = some (.number index) := by
  constructor
  · intro tidy
    refine ⟨by simp [tidy.plain], tidy.nodup, fun id member => ⟨tidy.made id member, ?_⟩, ?_⟩
    · exact fun l label => tidy.placed_of_label id member l (label?_eq_some.mp label)
    · intro index _ id placed
      obtain ⟨member, label⟩ := tidy.label_of_placed _ id placed
      exact ⟨member, label?_eq_some.mpr label⟩
  · rintro ⟨plain, nodup, listed, placed⟩
    refine ⟨by simpa using plain, nodup, fun id member => (listed id member).1, ?_, ?_⟩
    · exact fun id member l label => (listed id member).2 l (label?_eq_some.mpr label)
    · intro l id found
      cases l with
      | nowhere => cases found
      | number index =>
        have inside : index < m.placed.size := by
          by_contra outside
          simp [placedAt?, outside] at found
        obtain ⟨member, label⟩ := placed index inside id found
        exact ⟨member, label?_eq_some.mp label⟩

instance : Decidable m.Tidy := decidable_of_iff _ m.tidy_iff.symm

theorem live_iff (id : StmtId) : m.Live id ↔ ∃ position ∈ range m.order.toList.length,
    m.order.toList[position]? = some id ∧ (Flow.ofMethod m).isReachable position = true := by
  constructor
  · rintro ⟨position, here, live⟩
    exact ⟨position, mem_range.mpr (lt_of_get here), here, live⟩
  · rintro ⟨position, -, rest⟩
    exact ⟨position, rest⟩

instance (id : StmtId) : Decidable (m.Live id) := decidable_of_iff _ (m.live_iff id).symm

instance (position : Nat) : Decidable (m.RunsOn position) :=
  decidable_of_iff (((m.actions[position]?).any Action.fallsThrough) = true) (by
    rw [Option.any_eq_true, RunsOn])

theorem inBlock_iff (l : Label) (position : Nat) : m.InBlock l position ↔
    m.blockAt position = l ∧ ∃ start ∈ m.find? l, start ≤ position ∧
      ∀ i < position, start ≤ i → m.RunsOn i := by
  constructor
  · rintro ⟨block, start, place, le, runs⟩
    exact ⟨block, start, place, le, fun i high low => runs i low high⟩
  · rintro ⟨block, start, place, le, runs⟩
    exact ⟨block, start, place, le, fun i low high => runs i high low⟩

instance (l : Label) (position : Nat) : Decidable (m.InBlock l position) :=
  decidable_of_iff _ (m.inBlock_iff l position).symm

theorem lt_of_mem_edgesOf {exceptional : Bool} {position next : Nat}
    (edge : next ∈ m.edgesOf exceptional position) : position < m.actions.length := by
  by_contra outside
  have missing : m.actions[position]? = none := getElem?_eq_none_iff.mpr (by omega)
  unfold edgesOf at edge
  split at edge
  · rw [Flow.exSuccsOf_ofMethod, missing] at edge
    cases edge
  · rw [Flow.succsOf_ofMethod, missing] at edge
    cases edge

variable (counts : Nat → Prop)

theorem edgeFrom_iff_lt (l : Label) (exceptional : Bool) (header : Nat) :
    m.EdgeFrom counts l exceptional header ↔ ∃ source ∈ range m.actions.length,
      counts source ∧ m.InBlock l source ∧ header ∈ m.edgesOf exceptional source := by
  constructor
  · rintro ⟨source, counted, inside, edge⟩
    exact ⟨source, mem_range.mpr (m.lt_of_mem_edgesOf edge), counted, inside, edge⟩
  · rintro ⟨source, -, rest⟩
    exact ⟨source, rest⟩

theorem fits_iff (header : Nat) (args : List PhiArg) : m.Fits counts header args ↔
    (args.map PhiArg.way).Nodup ∧
    (∀ way ∈ args.map PhiArg.way, ∃ source ∈ List.range m.actions.length,
      counts source ∧ m.InBlock way.1 source ∧ header ∈ m.edgesOf way.2 source) ∧
    ∀ source ∈ List.range m.actions.length, ∀ exceptional,
      (counts source ∧ header ∈ m.edgesOf exceptional source) → m.InBlock (m.blockAt source) source ∧
        (m.blockAt source, exceptional) ∈ args.map PhiArg.way := by
  constructor
  · rintro ⟨named, once, ways⟩
    refine ⟨once, ?_, ?_⟩
    · rintro ⟨l, exceptional⟩ listed
      exact (m.edgeFrom_iff_lt counts ..).mp ((ways l exceptional).mp listed)
    · rintro source - exceptional ⟨counted, edge⟩
      obtain ⟨l, inside⟩ := named source exceptional counted edge
      have block := inside.block
      subst block
      exact ⟨inside, (ways _ exceptional).mpr ⟨source, counted, inside, edge⟩⟩
  · rintro ⟨once, each, all⟩
    refine ⟨?_, once, ?_⟩
    · intro source exceptional counted edge
      exact ⟨_, (all source (mem_range.mpr (m.lt_of_mem_edgesOf edge)) exceptional
        ⟨counted, edge⟩).1⟩
    · intro l exceptional
      constructor
      · exact fun listed => (m.edgeFrom_iff_lt counts ..).mpr (each _ listed)
      · rintro ⟨source, counted, inside, edge⟩
        rw [← inside.block]
        exact (all source (mem_range.mpr (m.lt_of_mem_edgesOf edge)) exceptional
          ⟨counted, edge⟩).2

instance [DecidablePred counts] (header : Nat) (args : List PhiArg) :
    Decidable (m.Fits counts header args) := decidable_of_iff _ (m.fits_iff counts header args).symm

theorem joinsFit_iff : m.JoinsFit counts ↔ ∀ position < m.actions.length,
    ∀ a ∈ m.actions[position]?, a.isPhi = true → ∀ header ∈ m.headerOf position,
      m.Fits counts header a.phiArgs := by
  constructor
  · intro fit position _ a found single header block
    cases a with
    | phi target args => exact fit position target args header found block
    | _ => cases single
  · intro all position target args header found block
    exact all position (lt_of_get found) _ found rfl header block

instance [DecidablePred counts] : Decidable (m.JoinsFit counts) :=
  decidable_of_iff _ (m.joinsFit_iff counts).symm

end Method

end DexLift.Ir
