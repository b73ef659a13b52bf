import DexLift.Proofs.Ir.Assigned
import DexLift.Proofs.Lower.Simulation

/-!
# Paths through a lowered method

A path through the statement graph of a lowered method stands at a place of the
entry or of a block. What registers hold at that place is assigned on the path:
the statements of a block assign what they put into registers, joins assign what
they define, and an edge hands over what its source held, before the statement
that throws when the edge is exceptional. A switch whose default leads nowhere
goes back to the first block, where only the locals of the entry are needed.
-/

namespace DexLift.Lower

open Ir Dalvik List Source

/-! ## What registers hold -/

variable {a : Action} {l : Label} {index k position : Nat} {out : Registers} {actions : List Action}
  {ended : Bool}

def Provided (v : Verdict) (regs : Registers) (assigned : List LocalId) : Prop :=
  ∀ r l, regs.getD r none = some l → v.Whole l → v.resolve l ∈ assigned

section Provided

variable {v : Verdict} {regs after : Registers} {assigned more : List LocalId}
  {labelOf : UInt32 → Label} {behind : Label} {new : LocalId} {op : Operation}

section

variable (provided : Provided v regs assigned)

include provided

theorem Provided.mono (sub : assigned ⊆ more) : Provided v regs more :=
  fun r l held whole => sub (provided r l held whole)

theorem Provided.puts {goal : Nat} {held : Option LocalId} (puts : Puts regs goal held after)
    (there : ∀ l, held = some l → v.Whole l → v.resolve l ∈ assigned) :
    Provided v after assigned := by
  intro r l here whole
  by_cases same : r = goal
  · subst same
    rw [puts.there] at here
    exact there l here whole
  · rcases puts.others r same with kept | cleared
    · exact provided r l (kept ▸ here) whole
    · rw [cleared] at here
      cases here

theorem Provided.silent (emits : Emits labelOf behind new regs op none after) :
    Provided v after assigned := by
  cases emits with
  | nop => exact provided
  | copy puts => exact provided.puts puts fun l held => provided _ l held

theorem Provided.emits (emits : Emits labelOf behind new regs op (some a) after)
    (fixed : ∀ l, a.defines? = some l → v.resolve l = l) :
    Provided v after (a.defines?.toList ++ assigned) := by
  have wider : Provided v regs (a.defines?.toList ++ assigned) :=
    provided.mono (subset_append_right _ _)
  cases emits with
  | receive puts | define _ _ puts =>
    refine wider.puts puts fun l held _ => ?_
    cases held
    rw [fixed _ rfl]
    exact mem_cons_self
  | _ => exact wider

end

end Provided

/-! ## Control flow of statements -/

section Flow

variable {labelOf : UInt32 → Label} {behind : Label} {new : LocalId} {regs after : Registers}
  {op : Operation} {a : Action}

@[simp] theorem fallsThrough_substitute (subst : Substitution) (a : Action) :
    (a.substitute subst).fallsThrough = a.fallsThrough := by
  cases a <;> rfl

theorem Emits.fallsThrough (emits : Emits labelOf behind new regs op (some a) after) :
    a.fallsThrough = continues op := by
  cases emits <;> rfl

theorem Emits.continues_of_silent (emits : Emits labelOf behind new regs op none after) :
    continues op = true := by
  cases emits <;> rfl

theorem Emits.targets (emits : Emits labelOf behind new regs op (some a) after)
    (target : l ∈ a.targets) :
    after = regs ∧ a.defines? = none ∧ transfers op = true ∧
      ((∃ addr ∈ jumps op, l = labelOf addr) ∨ (switches op = true ∧ l = behind)) := by
  cases emits with
  | branch | branchZero | goto =>
    exact ⟨rfl, rfl, rfl, .inl ⟨_, mem_cons_self, mem_singleton.mp target⟩⟩
  | switch =>
    refine ⟨rfl, rfl, rfl, ?_⟩
    rcases mem_cons.mp target with here | case_
    · exact .inr ⟨rfl, here⟩
    · obtain ⟨addr, named, rfl⟩ := mem_map.mp case_
      exact .inl ⟨addr, named, rfl⟩
  | _ => cases target

theorem canThrow_of_reads {operands : List Dalvik.Operand} {args : List Expr}
    (reads : List.Forall₂ (Reads regs) operands args) (subst : Substitution) {head : Head}
    (operator : operates head = true) :
    (Expr.node head (args.map subst.applyExpr)).canThrow = head.throws := by
  have quiet : (Expr.nodesOf (args.map subst.applyExpr)).any (fun n => n.head.throws) = false := by
    induction reads with
    | nil => rfl
    | cons read _ ih =>
      rw [map_cons, Expr.nodesOf, any_append, ih]
      cases read <;> rfl
  rw [Expr.canThrow, Expr.nodes, any_cons, quiet, Bool.or_false]
  · rfl
  · rintro rfl
    cases operator

theorem Emits.throws (emits : Emits labelOf behind new regs op (some a) after)
    (subst : Substitution) (thrown : (a.substitute subst).canThrow = true) :
    Lower.throws op = true := by
  cases emits with
  | define operator reads =>
    rw [substitute_assign subst operator] at thrown
    have one := canThrow_of_reads reads subst operator
    simpa [Action.canThrow, Action.operands, Action.value?, isMissing_node operator, one,
      Lower.throws] using thrown
  | discard operator reads =>
    rw [substitute_void subst operator] at thrown
    have one := canThrow_of_reads reads subst operator
    simpa [Action.canThrow, Action.operands, Action.value?, isMissing_node operator, one,
      Lower.throws] using thrown
  | store | fill | enter | exit | throw => rfl
  | _ => cases thrown

end Flow

/-! ## Addresses -/

/-- Instructions stand one after the other, and tries begin and end on their boundaries. -/
structure Laid (source : Source) : Prop where
  apart : ∀ i j, i < j → j < source.instructions.size →
    (source.at_ i).Precedes (source.at_ j)
  bounds : ∀ t ∈ source.tries, OnBoundary source t.start ∧ OnBoundary source t.stop

theorem precedes_of_readCode {f : Dex.File} {offset : UInt32} {code : Dex.Code}
    (read : f.readCode offset = .ok code) (i j : Nat) (less : i < j)
    (inside : j < (ofCode code).instructions.size) :
    ((ofCode code).at_ i).Precedes ((ofCode code).at_ j) := by
  have sorted := pairwise_iff_getElem.mp (Dex.readCode_precedes read)
  have bound : j < code.instructions.length := by simpa [ofCode] using inside
  have here := sorted i j (lt_trans less bound) bound less
  simpa [at_, ofCode, bound, lt_trans less bound] using here

theorem Laid.wellPlaced {source : Source} (laid : Laid source) : WellPlaced source :=
  ⟨fun i j less inside => (laid.apart i j less inside).addr_lt, laid.bounds⟩

section Behind

variable {source : Source} (apart : ∀ i j, i < j → j < source.instructions.size →
  (source.at_ i).Precedes (source.at_ j))

include apart

theorem index_behind {j : Nat} (inside : index + 1 < source.instructions.size)
    (found : source.indexOf? ((source.at_ index).addr + UInt32.ofNat (source.at_ index).size) =
      some j) : j = index + 1 := by
  obtain ⟨bound, matching, -⟩ := Array.findIdx?_eq_some_iff_getElem.mp found
  have here : (source.at_ j).addr =
      (source.at_ index).addr + UInt32.ofNat (source.at_ index).size := by
    rw [at_, Array.getD_eq_getD_getElem?, Array.getElem?_eq_getElem bound]
    simpa using matching
  have next := Dex.Instruction.precedes_iff.mp (apart index (index + 1) (by omega) inside)
  have wide : 0 < (source.at_ index).size := (source.at_ index).op.format.units_pos
  have fits := (source.at_ (index + 1)).addr.toNat_lt
  -- The sum does not wrap around: it is at most the address of the next instruction.
  have sum : (source.at_ j).addr.toNat =
      (source.at_ index).addr.toNat + (source.at_ index).size := by
    rw [here, UInt32.toNat_add, UInt32.toNat_ofNat', Nat.add_mod_mod]
    exact Nat.mod_eq_of_lt (by omega)
  rcases Nat.lt_trichotomy j (index + 1) with less | same | greater
  · exfalso
    rcases Nat.lt_or_eq_of_le (Nat.le_of_lt_succ less) with before | rfl
    · have := Dex.Instruction.precedes_iff.mp (apart j index before (by omega))
      omega
    · omega
  · exact same
  · have := Dex.Instruction.precedes_iff.mp (apart (index + 1) j greater bound)
    have : 0 < (source.at_ (index + 1)).size := (source.at_ (index + 1)).op.format.units_pos
    omega

/-- What is behind the last instruction of a block is the next block when its first instruction
directly follows. Otherwise nothing begins there, which means the first block. -/
theorem blockOf_behind (next : k + 1 < source.starts.length) (last : source.stopOf k = index + 1) :
    Plan.blockOf source source.starts
        ((source.at_ index).addr + UInt32.ofNat (source.at_ index).size) =
      if (source.at_ (index + 1)).addr =
        (source.at_ index).addr + UInt32.ofNat (source.at_ index).size then k + 1 else 0 := by
  have start := startOf_succ next
  have member := startOf_mem next
  rw [start, last] at member
  have inside := (source.mem_starts.mp member).1
  cases found : source.indexOf? ((source.at_ index).addr +
      UInt32.ofNat (source.at_ index).size) with
  | none =>
    have apart : (source.at_ (index + 1)).addr ≠
        (source.at_ index).addr + UInt32.ofNat (source.at_ index).size := by
      intro same
      have absent := Array.findIdx?_eq_none_iff.mp found _ (Array.getElem_mem inside)
      rw [← same] at absent
      simp [at_, inside] at absent
    have first := source.starts_head (Nat.zero_lt_of_lt inside)
    obtain ⟨starts, head⟩ := List.getElem?_eq_some_iff.mp first
    have position : source.starts.idxOf? 0 = some 0 :=
      idxOf?_eq_some_iff.mpr ⟨starts, head, by simp⟩
    rw [if_neg apart, Plan.blockOf, found, Option.getD_none, position, Option.getD_some]
  | some j =>
    obtain ⟨bound, matching, -⟩ := Array.findIdx?_eq_some_iff_getElem.mp found
    have same := index_behind apart inside found
    subst same
    have follows : (source.at_ (index + 1)).addr =
        (source.at_ index).addr + UInt32.ofNat (source.at_ index).size := by
      rw [at_, Array.getD_eq_getD_getElem?, Array.getElem?_eq_getElem bound]
      simpa using matching
    obtain ⟨own, begins⟩ := blockOf_of_start found member
    rw [← last, ← start] at begins
    rw [if_pos follows]
    exact startOf_injective own next begins

end Behind

/-! ## Where a path stands -/

/-- The block with a label has handed over what its registers held at its end. The entry has no
registers of its own. -/
def HandsOver (s : Shape) (block : Label) (assigned : List LocalId) : Prop :=
  ∀ j, block = .number j →
    j = s.plan.blocks.size ∨ Provided s.verdict (s.piece j).followed.out assigned

/-- What is assigned where a path has left a block: the locals of the entry, and what the block
held. -/
structure Arrival (s : Shape) (block : Label) (assigned : List LocalId) : Prop where
  opened : Provided s.verdict s.entry.out assigned
  handsOver : HandsOver s block assigned

/-- What holds of a path in front of a position of a block: it has passed the entry, and the
position belongs to the block, or else to a block that runs on into it. -/
structure Inside (m : Ir.Method) (s : Shape) (k position : Nat) (ended : Bool)
    (assigned : List LocalId) : Prop where
  listed : k ∈ s.layout
  opened : Provided s.verdict s.entry.out assigned
  kept : ∀ j, (m.standing position).block = .number j →
    j = k ∨ j = s.plan.blocks.size ∨ Provided s.verdict (s.piece j).followed.out assigned
  own : m.opens (.number k) = true → m.standing position = ⟨.number k, ended⟩

inductive Stage (file : Dex.File) (m : Ir.Method) (s : Shape) : Nat → List LocalId → Prop where
  | opening {position : Nat} {assigned : List LocalId} (early : position < s.header 0)
      (front : ∀ j, (m.standing position).block = .number j → j = s.plan.blocks.size)
      (named : ∀ i < position, ∀ a l, m.actions[i]? = some a → a.defines? = some l →
        l ∈ assigned) :
      Stage file m s position assigned
  | header {k : Nat} {e : Edge} {assigned : List LocalId} (listed : k ∈ s.layout)
      (edge : e ∈ (s.plan.block k).preds) (known : Known s.done e)
      (opened : Provided s.verdict s.entry.out assigned)
      (provided : Provided s.verdict (s.along e) assigned)
      (came : m.opens (.number k) = true ∨
        HandsOver s (m.standing (s.header k)).block assigned) :
      Stage file m s (s.header k) assigned
  | joining {k i : Nat} {e : Edge} {assigned : List LocalId}
      (inside : Inside m s k (s.header k + 1 + i) false assigned)
      (more : i < (s.piece k).joins.length) (edge : e ∈ (s.plan.block k).preds)
      (known : Known s.done e) (provided : Provided s.verdict (s.along e) assigned)
      (joined : ∀ r ∈ (s.piece k).joins.take i, (s.piece k).low + r ∈ assigned) :
      Stage file m s (s.header k + 1 + i) assigned
  | running {k index new position : Nat} {regs middle : Registers} {op : Operation} {a : Action}
      {rest : List Action} {assigned : List LocalId}
      (inside : Inside m s k position false assigned) (own : k < s.plan.source.starts.length)
      (after : s.plan.source.startOf k ≤ index) (before : index < s.plan.source.stopOf k)
      (first : First file s.plan (s.plan.block k) (throwingOf s.plan (s.plan.block k))
        (s.piece k).followed.beforeThrow s.verdict index regs (s.piece k).followed.out new middle op
        (some a) rest)
      (here : m.From position (a.substitute s.verdict.subst :: (rest ++ s.after k)))
      (behind : s.header k < position) (within : position + 1 + rest.length = s.stopAt k)
      (provided : Provided s.verdict regs assigned) :
      Stage file m s position assigned
  | leaping {k next : Nat} {assigned : List LocalId}
      (inside : Inside m s k (s.bodyAt k) false assigned)
      (leads : (s.plan.block k).leadsTo = some next)
      (provided : Provided s.verdict (s.piece k).into assigned) :
      Stage file m s (s.bodyAt k) assigned
  | leaving {k position : Nat} {ended : Bool} {assigned : List LocalId}
      (inside : Inside m s k position ended assigned) (next : k + 1 ∈ s.layout)
      (succ : k + 1 ∈ (s.plan.block k).succs) (low : s.stopAt k ≤ position)
      (high : position < s.header (k + 1))
      (provided : Provided s.verdict (s.piece k).followed.out assigned) :
      Stage file m s position assigned

/-- What is done at the statement where a path stands: nothing is read, jumped to or thrown there, or
an instruction is carried out, or a block in front of a handler jumps to it. -/
inductive Doing (file : Dex.File) (m : Ir.Method) (s : Shape) (position : Nat)
    (assigned : List LocalId) : Action → Prop where
  | quiet {a : Action} (reads : a.uses = []) (targets : a.targets = [])
      (throws : a.canThrow = false) : Doing file m s position assigned a
  | running {k index new : Nat} {regs middle : Registers} {op : Operation} {a : Action}
      {rest : List Action} (inside : Inside m s k position false assigned)
      (own : k < s.plan.source.starts.length) (after : s.plan.source.startOf k ≤ index)
      (before : index < s.plan.source.stopOf k)
      (first : First file s.plan (s.plan.block k) (throwingOf s.plan (s.plan.block k))
        (s.piece k).followed.beforeThrow s.verdict index regs (s.piece k).followed.out new middle op
        (some a) rest)
      (here : m.From position (a.substitute s.verdict.subst :: (rest ++ s.after k)))
      (behind : s.header k < position) (within : position + 1 + rest.length = s.stopAt k)
      (provided : Provided s.verdict regs assigned) :
      Doing file m s position assigned (a.substitute s.verdict.subst)
  | leaping {k h : Nat} (inside : Inside m s k position false assigned)
      (leads : (s.plan.block k).leadsTo = some h) (succs : (s.plan.block k).succs = [h])
      (here : m.From position (.goto (.number h) :: s.after k))
      (provided : Provided s.verdict (s.piece k).into assigned) :
      Doing file m s position assigned (.goto (.number h))

def Fallen (file : Dex.File) (m : Ir.Method) (s : Shape) (position : Nat)
    (assigned : List LocalId) : Prop :=
  Stage file m s position assigned ∧
    ∀ t ∈ s.layout, position = s.header t → Arrival s (m.standing position).block assigned

/-- What a path with an exception comes from: a block that throws to the block of a handler, with
what its registers held before the instruction that throws. -/
structure Thrown (m : Ir.Method) (s : Shape) (position next : Nat) (assigned : List LocalId)
    (source handler : Nat) : Prop where
  listed : source ∈ s.layout
  landed : handler ∈ s.layout
  place : next = s.header handler
  edge : (⟨some source, true⟩ : Edge) ∈ (s.plan.block handler).preds
  opened : Provided s.verdict s.entry.out assigned
  provided : Provided s.verdict (s.piece source).followed.beforeThrow assigned
  block : m.opens (.number source) = true → m.blockAt position = .number source
  opens : m.opens (.number handler) = true

section Inside

variable {m : Ir.Method} {s : Shape} {k position : Nat} {ended : Bool} {a : Action} {l : Label}
  {rest : List Action} {assigned more : List LocalId}

theorem block_of_pass {opens : Label → Bool} {standing : Ir.Method.Standing}
    (stays : a.label? = none ∨ ∃ l, a = .label l ∧ opens l = false) {j : Nat}
    (block : (standing.pass opens a).block = .number j) : standing.block = .number j := by
  rcases stays with plain | ⟨l, rfl, closed⟩
  · have split : standing.pass opens a =
        if standing.ended then ⟨.nowhere, true⟩ else ⟨standing.block, a.endsBlock⟩ := by
      cases a with
      | label => cases plain
      | _ => rfl
    rw [split] at block
    split at block
    · cases block
    · exact block
  · simpa [Ir.Method.Standing.pass, closed] using block

theorem Inside.kept_next (inside : Inside m s k position ended assigned)
    (here : m.From position (a :: rest))
    (stays : a.label? = none ∨ ∃ l, a = .label l ∧ m.opens l = false) (sub : assigned ⊆ more) :
    ∀ j, (m.standing (position + 1)).block = .number j →
      j = k ∨ j = s.plan.blocks.size ∨ Provided s.verdict (s.piece j).followed.out more := by
  intro j block
  rw [Ir.Method.standing_next here] at block
  rcases inside.kept j (block_of_pass stays block) with own | entry | provided
  · exact .inl own
  · exact .inr (.inl entry)
  · exact .inr (.inr (provided.mono sub))

theorem Inside.plain (inside : Inside m s k position false assigned)
    (here : m.From position (a :: rest)) (plain : a.label? = none) (sub : assigned ⊆ more) :
    Inside m s k (position + 1) a.endsBlock more := by
  refine ⟨inside.listed, inside.opened.mono sub, inside.kept_next here (.inl plain) sub, ?_⟩
  intro opens
  rw [Ir.Method.standing_next here, inside.own opens, pass_plain plain]

theorem Inside.label (inside : Inside m s k position ended assigned)
    (here : m.From position (.label l :: rest)) (closed : m.opens l = false)
    (sub : assigned ⊆ more) : Inside m s k (position + 1) ended more := by
  refine ⟨inside.listed, inside.opened.mono sub,
    inside.kept_next here (.inr ⟨l, rfl, closed⟩) sub, ?_⟩
  intro opens
  rw [Ir.Method.standing_next here, inside.own opens]
  simp [Ir.Method.Standing.pass, closed]

theorem Inside.arrival (inside : Inside m s k position ended assigned)
    (provided : Provided s.verdict (s.piece k).followed.out assigned) :
    Arrival s (m.standing position).block assigned := by
  refine ⟨inside.opened, fun j block => ?_⟩
  rcases inside.kept j block with rfl | entry | before
  · exact .inr provided
  · exact .inl entry
  · exact .inr before

end Inside

variable {file : Dex.File} {ref : MethodRef} {isStatic : Bool} {code : Dex.Code} {m : Ir.Method}
  {s : Shape} {assigned : List LocalId}

/-! ## The entry -/

theorem Names.held {params : List (Text × Nat)} {reg new : Nat} {regs : Registers}
    (names : Names params reg regs new actions out) {r : Nat} {l : LocalId}
    (here : out.getD r none = some l) :
    regs.getD r none = some l ∨ ∃ a ∈ actions, a.defines? = some l := by
  induction names with
  | nil => exact .inl here
  | cons inside more ih =>
    rcases ih here with before | ⟨a, member, defined⟩
    · rw [getD_set] at before
      split at before
      · exact .inr ⟨_, mem_cons_self, before⟩
      · exact .inl before
    · exact .inr ⟨a, mem_cons_of_mem _ member, defined⟩

theorem Enters.held (enters : Enters ref isStatic code actions out) {r : Nat} {l : LocalId}
    (here : out.getD r none = some l) : ∃ a ∈ actions, a.defines? = some l := by
  have nothing : (Array.replicate code.registers.toNat (none : Option LocalId)).getD r none =
      none := by
    simp [Array.getElem?_replicate]
    split <;> rfl
  cases enters with
  | static _ names =>
    rcases names.held here with before | named
    · rw [nothing] at before
      cases before
    · exact named
  | receiver _ names =>
    rcases names.held here with before | ⟨a, member, defined⟩
    · rw [getD_set] at before
      split at before
      · exact ⟨_, mem_cons_self, before⟩
      · rw [nothing] at before
        cases before
    · exact ⟨a, mem_cons_of_mem _ member, defined⟩

theorem quiet_of_isNaming (naming : isNaming a = true) :
    a.fallsThrough = true ∧ a.targets = [] ∧ a.canThrow = false ∧ a.uses = [] := by
  unfold isNaming at naming
  split at naming
  · exact ⟨rfl, rfl, rfl, rfl⟩
  · exact ⟨rfl, rfl, rfl, rfl⟩
  · cases naming

/-! ## Running on -/

theorem Shape.stopAt_le (listed : k ∈ s.layout) : s.stopAt k ≤ s.header (k + 1) := by
  have length := s.length_segment k
  have later := s.length_le_base listed (Nat.lt_add_one k)
  unfold Shape.header
  omega

namespace Lowered

variable (lowered : Lowered file ref isStatic code m s)

include lowered

theorem edge_of_succ {j : Nat} (source : j ∈ s.layout) (succ : k ∈ (s.plan.block j).succs) :
    k ∈ s.layout ∧ (⟨some j, false⟩ : Edge) ∈ (s.plan.block k).preds :=
  ⟨lowered.closed j source k (mem_append_left _ succ),
    (lowered.sound.entered j (mem_range.mp (mem_of_mem_filter source))).normal k succ⟩

theorem between (listed : k ∈ s.layout) (next : k + 1 ∈ s.layout) (low : s.stopAt k ≤ position)
    (high : position < s.header (k + 1)) :
    ∃ l rest, m.From position (.label l :: rest) ∧ m.opens l = false := by
  obtain ⟨labels, parts, closed⟩ := lowered.after_eq next
  have here : m.From (s.stopAt k) (labels.map Action.label ++ s.fromHeader (k + 1)) :=
    parts ▸ (lowered.from_body listed).skip
  have length : s.stopAt k + (labels.map Action.label).length = s.header (k + 1) :=
    lowered.tidy.position_unique here.skip.get (lowered.from_header next).get
  obtain ⟨a, member, rest, there⟩ := here.within low (length ▸ high)
  obtain ⟨l, label, rfl⟩ := mem_map.mp member
  exact ⟨l, rest, there, closed l label⟩

theorem not_header {t : Nat} {rest : List Action} (listed : t ∈ s.layout)
    (here : m.From position (a :: rest)) (plain : a.label? = none) : position ≠ s.header t := by
  rintro rfl
  have same : a = .label (.number t) :=
    Option.some.inj (here.get.symm.trans (lowered.from_header listed).get)
  rw [same] at plain
  cases plain

theorem join_at {i : Nat} (listed : k ∈ s.layout) (inside : i < (s.piece k).joins.length) :
    ∃ r rest, (s.piece k).joins[i]? = some r ∧
      m.From (s.header k + 1 + i) (s.phi k r :: rest) := by
  have split : (s.piece k).joins =
      (s.piece k).joins.take i ++ (s.piece k).joins[i] :: (s.piece k).joins.drop (i + 1) := by
    rw [← drop_eq_getElem_cons inside, take_append_drop]
  have here := (lowered.from_header listed).next
  rw [split, map_append, append_assoc] at here
  have there := here.skip
  rw [length_map, length_take, Nat.min_eq_left (le_of_lt inside)] at there
  exact ⟨_, _, getElem?_eq_getElem inside, there⟩

theorem fallen_between (inside : Inside m s k position ended assigned) (next : k + 1 ∈ s.layout)
    (succ : k + 1 ∈ (s.plan.block k).succs) (low : s.stopAt k ≤ position)
    (high : position ≤ s.header (k + 1))
    (provided : Provided s.verdict (s.piece k).followed.out assigned) :
    Fallen file m s position assigned := by
  have arrival := inside.arrival provided
  refine ⟨?_, fun _ _ _ => arrival⟩
  rcases Nat.lt_or_eq_of_le high with early | late
  · exact .leaving inside next succ low early provided
  · subst late
    exact .header next (lowered.edge_of_succ inside.listed succ).2 (known_of_mem inside.listed false)
      inside.opened (by rwa [lowered.along_eq inside.listed]) (.inr arrival.handsOver)

theorem fallen_of_end (inside : Inside m s k position ended assigned)
    (own : k < s.plan.source.starts.length)
    (runsOn : (s.plan.source.at_ (s.plan.source.stopOf k - 1)).op.flow.continues = true)
    (place : position = s.stopAt k)
    (provided : Provided s.verdict (s.piece k).followed.out assigned) :
    Fallen file m s position assigned := by
  obtain ⟨-, succ, next⟩ := lowered.next_block inside.listed own runsOn
  exact lowered.fallen_between inside next succ (le_of_eq place.symm)
    (place ▸ s.stopAt_le inside.listed) provided

/-- A path in front of the rest of the statements of a block. -/
theorem fallen_of_runs {regs : Registers}
    (runs : Runs file s.plan (s.plan.block k) (throwingOf s.plan (s.plan.block k))
      (s.piece k).followed.beforeThrow s.verdict index regs actions out)
    (own : k < s.plan.source.starts.length) (last : out = (s.piece k).followed.out)
    (inside : Inside m s k position ended assigned) (open_ : actions ≠ [] → ended = false)
    (after : s.plan.source.startOf k ≤ index) (before : index ≤ s.plan.source.stopOf k)
    (runsOn : index = s.plan.source.stopOf k →
      (s.plan.source.at_ (s.plan.source.stopOf k - 1)).op.flow.continues = true)
    (here : m.From position (actions ++ s.after k)) (behind : s.header k < position)
    (within : position + actions.length = s.stopAt k) (provided : Provided s.verdict regs assigned) :
    Fallen file m s position assigned := by
  induction runs with
  | finish ended =>
    rw [lowered.stop_eq own] at ended
    subst last
    exact lowered.fallen_of_end inside own (runsOn (le_antisymm before ended)) within provided
  | @step index new regs middle out op emitted rest inBlock does emits below bounded reads fixed
      receives keeps more ih =>
    rw [lowered.stop_eq own] at inBlock
    obtain ⟨later, inTime⟩ := lowered.nextIn_le own inBlock
    cases emitted with
    | none =>
      have goesOn := emits.continues_of_silent
      exact ih last open_ (le_trans after (le_of_lt later)) inTime
        (runs_on does goesOn) here within (provided.silent emits)
    | some a =>
      cases open_ (by simp)
      subst last
      refine ⟨?_, ?_⟩
      · refine .running inside own after inBlock
          ⟨does, emits, below, reads, fixed, receives, keeps, more⟩ here behind ?_ provided
        simp only [Option.toList_some, map_singleton, singleton_append, length_cons] at within
        omega
      · intro t listed same
        refine absurd same (lowered.not_header listed here ?_)
        rw [label?_substitute]
        exact emits.not_label

theorem fallen_of_body (inside : Inside m s k (s.bodyAt k) false assigned)
    (provided : Provided s.verdict (s.piece k).into assigned) :
    Fallen file m s (s.bodyAt k) assigned := by
  have here := lowered.from_body inside.listed
  rcases lowered.body_cases inside.listed with ⟨own, -⟩ | ⟨h, -, leads, body, -⟩
  · have notEmpty := startOf_lt_stopOf own
    refine lowered.fallen_of_runs (lowered.runs_of_mem inside.listed own) own rfl inside
      (fun _ => rfl) le_rfl (le_of_lt notEmpty) (fun same => by omega) here ?_ rfl
      provided
    unfold Shape.bodyAt
    omega
  · rw [body] at here
    exact ⟨.leaping inside leads provided,
      fun t listed same => absurd same (lowered.not_header listed here rfl)⟩

theorem provided_into (listed : k ∈ s.layout) {e : Edge} (edge : e ∈ (s.plan.block k).preds)
    (known : Known s.done e) (provided : Provided s.verdict (s.along e) assigned)
    (joined : ∀ r ∈ (s.piece k).joins, (s.piece k).low + r ∈ assigned) :
    Provided s.verdict (s.piece k).into assigned := by
  have reached := lowered.reached k listed
  intro r l held whole
  cases isJoin : (s.plan.block k).isJoin with
  | false =>
    obtain ⟨-, only, preds, -, into⟩ := reached.single isJoin
    rw [preds, mem_singleton] at edge
    subst edge
    exact provided r l (into ▸ held) whole
  | true =>
    obtain ⟨into, decided⟩ := reached.several isJoin
    rw [into, countingFrom_getD] at held
    split at held
    next bound =>
      cases held
      cases decided r bound with
      | dropped gone _ => exact absurd whole gone
      | kept _ _ stays fixed =>
        rw [fixed]
        exact joined r stays
      | replaced _ ways _ _ =>
        obtain ⟨l, heldAlong, wholeAlong, same⟩ := ways e edge known
        rw [← same]
        exact provided r l heldAlong wholeAlong
    · cases held

theorem fallen_of_joins {i : Nat} {e : Edge}
    (inside : Inside m s k (s.header k + 1 + i) false assigned) (le : i ≤ (s.piece k).joins.length)
    (edge : e ∈ (s.plan.block k).preds) (known : Known s.done e)
    (provided : Provided s.verdict (s.along e) assigned)
    (joined : ∀ r ∈ (s.piece k).joins.take i, (s.piece k).low + r ∈ assigned) :
    Fallen file m s (s.header k + 1 + i) assigned := by
  rcases Nat.lt_or_eq_of_le le with more | all
  · refine ⟨.joining inside more edge known provided joined, ?_⟩
    intro t listed same
    obtain ⟨r, rest, -, here⟩ := lowered.join_at inside.listed more
    exact absurd same (lowered.not_header listed here rfl)
  · subst all
    rw [take_length] at joined
    exact lowered.fallen_of_body inside
      (lowered.provided_into inside.listed edge known provided joined)

theorem inside_of_header (listed : k ∈ s.layout) (opened : Provided s.verdict s.entry.out assigned)
    (came : m.opens (.number k) = true ∨ HandsOver s (m.standing (s.header k)).block assigned) :
    Inside m s k (s.header k + 1) false assigned := by
  have next := Ir.Method.standing_next (lowered.from_header listed)
  refine ⟨listed, opened, ?_, ?_⟩
  · intro j block
    rw [next] at block
    cases opens : m.opens (.number k) with
    | true =>
      simp only [Ir.Method.Standing.pass, opens, if_true, Label.number.injEq] at block
      exact .inl block.symm
    | false =>
      rcases came with contrary | hands
      · rw [opens] at contrary
        cases contrary
      · exact .inr (hands j (block_of_pass (.inr ⟨_, rfl, opens⟩) block))
  · intro opens
    rw [next]
    simp [Ir.Method.Standing.pass, opens]

/-- What stands in front of the label of the first block: the label of the entry, the names of the
receiver and the parameters, and labels of traps. -/
theorem entry_at (early : position < s.header 0) :
    ∃ a rest, m.From position (a :: rest) ∧
      (a = .label (.number s.plan.blocks.size) ∨ a ∈ s.opening ∨
        ∃ t ∈ s.trapped, a = .label (.number t.start)) := by
  have start : m.From 0 ((.label (.number s.plan.blocks.size) :: s.opening) ++
      (labelled (startsAt s.trapped 0) ++ s.fromHeader 0)) := by
    have behind := Ir.Method.from_of_append lowered.actions
    have base := lowered.from_base lowered.first
    rw [s.base_zero] at base
    rw [Ir.Method.From, drop_zero, lowered.actions]
    exact congrArg _ (behind.symm.trans base)
  rw [← append_assoc] at start
  have length : s.header 0 = 0 + ((.label (.number s.plan.blocks.size) :: s.opening : List Action) ++
      labelled (startsAt s.trapped 0)).length := by
    rw [Shape.header, s.base_zero, length_append, labelled, length_map, length_cons, Nat.zero_add]
  obtain ⟨a, member, rest, here⟩ := start.within (Nat.zero_le position) (length ▸ early)
  refine ⟨a, rest, here, ?_⟩
  rcases mem_append.mp member with entry | label
  · rcases mem_cons.mp entry with rfl | naming
    · exact .inl rfl
    · exact .inr (.inl naming)
  · obtain ⟨number, listed, rfl⟩ := mem_map.mp label
    obtain ⟨t, trapped, rfl⟩ := mem_map.mp listed
    exact .inr (.inr ⟨t, mem_of_mem_filter trapped, rfl⟩)

theorem header_zero_le {t : Nat} (listed : t ∈ s.layout) : s.header 0 ≤ s.header t := by
  rcases Nat.eq_zero_or_pos t with rfl | later
  · exact le_rfl
  · have length := s.length_segment 0
    have less := s.length_le_base lowered.first later
    have := s.stopAt_le lowered.first
    unfold Shape.stopAt Shape.bodyAt at *
    unfold Shape.header at *
    omega

theorem provided_entry (named : ∀ i < s.header 0, ∀ a l, m.actions[i]? = some a →
    a.defines? = some l → l ∈ assigned) : Provided s.verdict s.entry.out assigned := by
  intro r l held _
  obtain ⟨a, member, defined⟩ := lowered.enters.held held
  obtain ⟨i, inside, rfl⟩ := mem_iff_getElem.mp member
  rw [(lowered.opening _ member l defined).1]
  refine named (i + 1) ?_ _ l ?_ defined
  · rw [Shape.header, s.base_zero]
    omega
  · rw [lowered.actions, cons_append, getElem?_cons_succ, getElem?_append_left inside,
      getElem?_eq_getElem inside]

theorem fallen_next (stage : Stage file m s position assigned)
    (found : m.actions[position]? = some a) (falls : a.fallsThrough = true) :
    Fallen file m s (position + 1) (a.defines?.toList ++ assigned) := by
  have sub : assigned ⊆ a.defines?.toList ++ assigned := subset_append_right _ _
  cases stage with
  | opening early front named =>
    obtain ⟨b, rest, here, kind⟩ := lowered.entry_at early
    cases here.get.symm.trans found
    have frontNext : ∀ j, (m.standing (position + 1)).block = .number j →
        j = s.plan.blocks.size := by
      intro j block
      rw [Ir.Method.standing_next here] at block
      rcases kind with rfl | naming | ⟨t, trapped, rfl⟩
      · cases opens : m.opens (.number s.plan.blocks.size) with
        | true =>
          simp only [Ir.Method.Standing.pass, opens, if_true, Label.number.injEq] at block
          exact block.symm
        | false => exact front j (block_of_pass (.inr ⟨_, rfl, opens⟩) block)
      · have plain := (stable_of_isNaming (lowered.enters.isNaming a naming) s.verdict.subst).2.2.2
        exact front j (block_of_pass (.inl plain) block)
      · have closed := lowered.not_opens trapped (by simp : t.start ∈ [t.start, t.stop])
        exact front j (block_of_pass (.inr ⟨_, rfl, closed⟩) block)
    have namedNext : ∀ i < position + 1, ∀ b l, m.actions[i]? = some b → b.defines? = some l →
        l ∈ a.defines?.toList ++ assigned := by grind
    rcases Nat.lt_or_eq_of_le (Nat.succ_le_of_lt early) with more | last
    · refine ⟨.opening more frontNext namedNext, ?_⟩
      intro t listed same
      have := lowered.header_zero_le listed
      omega
    · have place : position + 1 = s.header 0 := last
      rw [place] at namedNext frontNext ⊢
      have opened := lowered.provided_entry namedNext
      have hands : HandsOver s (m.standing (s.header 0)).block (a.defines?.toList ++ assigned) :=
        fun j block => .inl (frontNext j block)
      have arrival : Arrival s (m.standing (s.header 0)).block (a.defines?.toList ++ assigned) :=
        ⟨opened, hands⟩
      exact ⟨.header lowered.first lowered.sound.entry (by simp [Known]) opened opened (.inr hands),
        fun _ _ _ => arrival⟩
  | @header k e _ listed edge known opened provided came =>
    cases (lowered.from_header listed).get.symm.trans found
    have inside : Inside m s k (s.header k + 1) false assigned :=
      lowered.inside_of_header listed opened came
    exact lowered.fallen_of_joins (i := 0) inside (Nat.zero_le _) edge known provided (by simp)
  | @joining k i e _ inside more edge known provided joined =>
    obtain ⟨r, rest, place, here⟩ := lowered.join_at inside.listed more
    cases here.get.symm.trans found
    have joinedNext : ∀ other ∈ (s.piece k).joins.take (i + 1), (s.piece k).low + other ∈
        ((s.piece k).low + r) :: assigned := by
      intro other taken
      rw [take_add_one, place] at taken
      rcases mem_append.mp taken with before | last
      · exact sub (joined other before)
      · rw [Option.toList_some, mem_singleton] at last
        rw [last]
        exact mem_cons_self
    exact lowered.fallen_of_joins (i := i + 1) (inside.plain here rfl sub) more edge known
      (provided.mono sub) joinedNext
  | @running k index _ _ regs middle op b rest _ inside own after before first here behind within
      provided =>
    cases here.get.symm.trans found
    obtain ⟨later, inTime⟩ := lowered.nextIn_le own before
    have plain : (b.substitute s.verdict.subst).label? = none := by
      rw [label?_substitute]
      exact first.emits.not_label
    have goesOn : continues op = true := by
      rwa [← first.emits.fallsThrough, ← fallsThrough_substitute s.verdict.subst]
    have provides := provided.emits first.emits fun l defined => (first.fixed b rfl l defined).1
    rw [defines?_substitute] at sub ⊢
    refine lowered.fallen_of_runs first.more own rfl (inside.plain here plain sub) ?_
      (le_trans after (le_of_lt later)) inTime (runs_on first.does goesOn) here.next
      (by omega) within provides
    intro notEmpty
    -- Nothing of a block stands behind a transfer of control.
    rw [first.emits.endsBlock, Bool.eq_false_iff]
    intro transfers
    have flows := flowsAs_of_operation first.does
    have last := stopOf_of_transfers own after before (flows.transfers ▸ transfers)
    exact notEmpty (first.more.over (by rw [lowered.stop_eq own]; omega)).1
  | leaping inside leads provided =>
    rcases lowered.body_cases inside.listed with ⟨-, none⟩ | ⟨h, -, -, body, -⟩
    · rw [leads] at none
      cases none
    · have here := lowered.from_body inside.listed
      rw [body] at here
      cases here.get.symm.trans found
      cases falls
  | leaving inside next succ low high provided =>
    obtain ⟨l, rest, here, closed⟩ := lowered.between inside.listed next low high
    cases here.get.symm.trans found
    exact lowered.fallen_between (inside.label here closed sub) next succ (Nat.le_succ_of_le low) high
      provided

/-! ## Jumps and exceptions -/

theorem doing (stage : Stage file m s position assigned) (found : m.actions[position]? = some a) :
    Doing file m s position assigned a := by
  cases stage with
  | opening early =>
    obtain ⟨b, rest, here, kind⟩ := lowered.entry_at early
    cases here.get.symm.trans found
    rcases kind with rfl | naming | ⟨t, trapped, rfl⟩
    · exact .quiet rfl rfl rfl
    · obtain ⟨-, targets, throws, reads⟩ := quiet_of_isNaming (lowered.enters.isNaming a naming)
      exact .quiet reads targets throws
    · exact .quiet rfl rfl rfl
  | header listed =>
    cases (lowered.from_header listed).get.symm.trans found
    exact .quiet rfl rfl rfl
  | joining inside more =>
    obtain ⟨r, rest, -, here⟩ := lowered.join_at inside.listed more
    cases here.get.symm.trans found
    exact .quiet rfl rfl rfl
  | running inside own after before first here behind within provided =>
    cases here.get.symm.trans found
    exact .running inside own after before first here behind within provided
  | leaping inside leads provided =>
    rcases lowered.body_cases inside.listed with ⟨-, none⟩ | ⟨h, -, leadsTo, body, succs⟩
    · cases none.symm.trans leads
    · have here := lowered.from_body inside.listed
      rw [body] at here
      cases here.get.symm.trans found
      exact .leaping inside leadsTo succs here provided
  | leaving inside next succ low high =>
    obtain ⟨l, rest, here, -⟩ := lowered.between inside.listed next low high
    cases here.get.symm.trans found
    exact .quiet rfl rfl rfl

omit lowered in
theorem opens_of_target (member : a ∈ m.actions) (target : l ∈ a.targets) : m.opens l = true :=
  contains_iff_mem.mpr (mem_append_left _ (mem_append_left _
    (mem_flatMap.mpr ⟨a, member, mem_append_left _ target⟩)))

theorem stage_of_succ {t : Nat} (inside : Inside m s k position ended assigned)
    (succ : t ∈ (s.plan.block k).succs) (opens : m.opens (.number t) = true)
    (provided : Provided s.verdict (s.piece k).followed.out assigned) :
    Stage file m s (s.header t) assigned := by
  obtain ⟨listed, edge⟩ := lowered.edge_of_succ inside.listed succ
  refine .header listed edge (known_of_mem inside.listed false) inside.opened ?_ (.inl opens)
  rwa [lowered.along_eq inside.listed]

theorem stage_jump (laid : Laid s.plan.source) {next : Nat}
    (stage : Stage file m s position assigned) (found : m.actions[position]? = some a)
    (target : l ∈ a.targets) (there : m.find? l = some next) :
    Stage file m s next (a.defines?.toList ++ assigned) ∧
      Arrival s (m.blockAt position) (a.defines?.toList ++ assigned) := by
  have sub : assigned ⊆ a.defines?.toList ++ assigned := subset_append_right _ _
  have opens := opens_of_target (mem_of_getElem? found) target
  cases lowered.doing stage found with
  | quiet _ targets =>
    rw [targets] at target
    cases target
  | @running k index _ _ middle op b rest inside own after before first here behind within
      provided =>
    rw [targets_substitute] at target
    obtain ⟨same, nothing, transfers, goal⟩ := first.emits.targets target
    have flows := flowsAs_of_operation first.does
    have last := stopOf_of_transfers own after before (flows.transfers ▸ transfers)
    have later := (lowered.nextIn_le own before).1
    have out := (first.more.over (by rw [lowered.stop_eq own]; omega)).2
    have provides : Provided s.verdict (s.piece k).followed.out
        ((b.substitute s.verdict.subst).defines?.toList ++ assigned) := by
      rw [out, same]
      exact provided.mono sub
    have behind := inside.plain here (by rw [label?_substitute]; exact first.emits.not_label) sub
    refine ⟨?_, behind.arrival provides⟩
    have arrive : ∀ t ∈ (s.plan.block k).succs, l = .number t → Stage file m s next
        ((b.substitute s.verdict.subst).defines?.toList ++ assigned) := by
      rintro t succ rfl
      have listed := (lowered.edge_of_succ inside.listed succ).1
      cases (lowered.find_header listed).symm.trans there
      exact lowered.stage_of_succ behind succ opens provides
    rcases goal with ⟨addr, jumped, rfl⟩ | ⟨chooses, rfl⟩
    · refine arrive _ ?_ (lowered.labelOf_eq addr).1
      rw [lowered.starts]
      exact lowered.succ_of_jump own last (flows.jumps addr jumped)
    · have goesOn : continues op = true := by
        cases op with
        | switch => rfl
        | _ => cases chooses
      obtain ⟨inTime, succ, -⟩ := lowered.next_block inside.listed own (by
        rw [last, Nat.add_sub_cancel, ← flows.continues]
        exact goesOn)
      have label := (lowered.labelOf_eq ((s.plan.source.at_ index).addr +
        UInt32.ofNat (s.plan.source.at_ index).size)).1
      rw [lowered.starts, blockOf_behind laid.apart inTime last] at label
      split at label
      · exact arrive _ succ label
      · -- Nothing begins behind the switch: it goes back to the first block.
        rw [label] at there opens
        cases (lowered.find_header lowered.first).symm.trans there
        exact .header lowered.first lowered.sound.entry (by simp [Known]) behind.opened
          behind.opened (.inl opens)
  | @leaping k h inside leads succs here provided =>
    cases mem_singleton.mp target
    have out := ((lowered.reached _ inside.listed).front h leads).1
    have behind := inside.plain here rfl sub
    have succ : h ∈ (s.plan.block k).succs := by
      rw [succs]
      exact mem_cons_self
    have listed := (lowered.edge_of_succ inside.listed succ).1
    cases (lowered.find_header listed).symm.trans there
    exact ⟨lowered.stage_of_succ behind succ opens (out ▸ provided.mono sub),
      behind.arrival (out ▸ provided.mono sub)⟩

theorem thrown (placed : WellPlaced s.plan.source) {position next : Nat} {a : Action}
    (stage : Stage file m s position assigned) (found : m.actions[position]? = some a)
    (edge : next ∈ m.exSuccsAt (m.coversAt position) a) :
    ∃ source handler, Thrown m s position next assigned source handler := by
  obtain ⟨throws, i, covers, trap, atIndex, goal⟩ := Ir.Method.mem_exSuccsAt.mp edge
  cases lowered.doing stage found with
  | quiet _ _ safe =>
    rw [safe] at throws
    cases throws
  | @running k index _ _ middle op b rest inside own after before first here behind within
      provided =>
    have fails : (s.plan.source.at_ index).op.flow.throws = true := by
      rw [← (flowsAs_of_operation first.does).throws]
      exact first.emits.throws s.verdict.subst throws
    have member := mem_of_getElem? atIndex
    obtain ⟨other, start, stop, sameIndex, isStart, isStop, low, high⟩ :=
      Ir.Method.mem_coversAt.mp covers
    cases atIndex.symm.trans sameIndex
    rw [lowered.tidy.positionOf?_eq_find?] at isStart isStop goal
    have covered : m.covered trap position = true := by
      simp only [Ir.Method.covered, isStart, isStop, low, high, decide_true, Bool.and_self]
    obtain ⟨t, trapped, h, handles, rfl, landed⟩ := lowered.handler_of_mem member
    cases (lowered.find_header landed).symm.trans goal
    have reached := (lowered.covered_iff_covers placed trapped inside.listed own
      ⟨behind, by omega⟩ after before _ _).mp covered
    have tried : t.source ∈ s.plan.source.tries := by
      have listed := mem_map_of_mem (f := Trapped.source) trapped
      rw [lowered.sources] at listed
      exact mem_of_mem_filter listed
    have handled : h ∈ handlersAt s.plan.source (s.plan.source.at_ index).addr :=
      mem_flatMap.mpr ⟨t.source, mem_filter.mpr ⟨tried, reached⟩, handles⟩
    have succ := lowered.landing_mem own after before fails handled
    have kept := first.keeps (lowered.throwingOf_eq own after before fails handled)
    have known : k < s.plan.blocks.size :=
      mem_range.mp (mem_of_mem_filter inside.listed)
    have plain : (b.substitute s.verdict.subst).label? = none := by
      rw [label?_substitute]
      exact first.emits.not_label
    refine ⟨k, _, inside.listed, landed, rfl, ((lowered.sound.entered k known).thrown _ succ).1,
      inside.opened, kept ▸ provided, fun opens => ?_, ?_⟩
    · exact congrArg _ ((inside.plain here plain (List.Subset.refl _)).own opens)
    · exact contains_iff_mem.mpr (mem_append_left _
        (mem_append_right _ (mem_map_of_mem (f := Trap.handler) member)))
  | leaping => cases throws

theorem stage_thrown {next source handler : Nat}
    (thrown : Thrown m s position next assigned source handler) : Stage file m s next assigned := by
  rw [thrown.place]
  refine .header thrown.landed thrown.edge (known_of_mem thrown.listed true) thrown.opened ?_
    (.inl thrown.opens)
  rw [lowered.along_eq thrown.listed]
  exact thrown.provided

theorem stage_of_path (laid : Laid s.plan.source) (path : (Flow.ofMethod m).Path position assigned) :
    Stage file m s position assigned := by
  induction path with
  | start =>
    refine .opening ?_ ?_ ?_
    · rw [Shape.header, s.base_zero]
      omega
    · intro j block
      cases block
    · intro i less
      exact absurd less (Nat.not_lt_zero i)
  | @normal position next assigned _ edge stage =>
    rw [Flow.action_ofMethod]
    rw [Flow.succsOf_ofMethod] at edge
    cases found : m.actions[position]? with
    | none =>
      rw [found] at edge
      cases edge
    | some a =>
      rw [found] at edge
      rcases Ir.Method.mem_succsAt.mp edge with ⟨falls, -, rfl⟩ | ⟨l, target, there⟩
      · exact (lowered.fallen_next stage found falls).1
      · rw [lowered.tidy.positionOf?_eq_find?] at there
        exact (lowered.stage_jump laid stage found target there).1
  | @thrown position next assigned _ edge stage =>
    rw [Flow.exSuccsOf_ofMethod] at edge
    cases found : m.actions[position]? with
    | none =>
      rw [found] at edge
      cases edge
    | some a =>
      rw [found] at edge
      obtain ⟨source, handler, thrown⟩ := lowered.thrown laid.wellPlaced stage found edge
      exact lowered.stage_thrown thrown

end Lowered

end DexLift.Lower
