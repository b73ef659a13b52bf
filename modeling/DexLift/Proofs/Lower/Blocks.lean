import DexLift.Lower.Method
import DexLift.Proofs.Lower.Instruction
import DexLift.Proofs.Lower.Order

/-!
# What following the blocks gives

Statements and locals are made one after the other and never changed while the
blocks are followed. `Follows` is the derivation of one block: instruction by
instruction, with what the registers hold in between. `Built` says what is known
of a block that was followed, and the run lemma at the end says it of all of
them. What a register holds was made before, so that a new local is larger than
all locals in sight.
-/

namespace DexLift.Lower

open Ir Dalvik List
open Outcome (bind_ok under_ok)

/-! ## Methods that grow -/

variable {a : Action} {m grown : Ir.Method} {regs kept into : Registers} {b : PlannedBlock}
  {file : Dex.File} {plan : Plan} {throwing : Option Nat} {index k : Nat} {ids : List StmtId}
  {frame : Frame} {labelOf : UInt32 → Label} {behind : Label} {new : LocalId} {op : Operation}
  {f : Followed} {done : Progress} {rest : List Nat}

/-- More statements and locals, the old ones unchanged. -/
structure Extends (m grown : Ir.Method) : Prop where
  same : ∃ locals stmts, grown = { m with locals, stmts }
  stmts : m.stmts.size ≤ grown.stmts.size
  locals : m.locals.size ≤ grown.locals.size
  action : ∀ id < m.stmts.size, grown.action id = m.action id

theorem Extends.refl (m : Ir.Method) : Extends m m :=
  ⟨⟨_, _, rfl⟩, le_rfl, le_rfl, fun _ _ => rfl⟩

theorem Extends.trans {a b c : Ir.Method} (first : Extends a b) (second : Extends b c) :
    Extends a c := by
  refine ⟨?_, le_trans first.stmts second.stmts, le_trans first.locals second.locals, ?_⟩
  · obtain ⟨_, _, rfl⟩ := first.same
    obtain ⟨locals, stmts, rfl⟩ := second.same
    exact ⟨locals, stmts, rfl⟩
  · intro id inside
    rw [second.action id (lt_of_lt_of_le inside first.stmts), first.action id inside]

/-- Every local is defined by exactly one statement, linked or not. -/
structure DefinesOnce (m : Ir.Method) : Prop where
  known : ∀ id l, (m.action id).defines? = some l → l < m.locals.size
  once : ∀ id other l, (m.action id).defines? = some l → (m.action other).defines? = some l →
    id = other
  all : ∀ l < m.locals.size, ∃ id < m.stmts.size, (m.action id).defines? = some l

section

variable (grows : Grows m a grown)

include grows

theorem Grows.action_eq (id : StmtId) :
    grown.action id = if id = m.stmts.size then a else m.action id := by
  obtain ⟨_, _, rfl⟩ := grows.same
  simp only [Ir.Method.action, Ir.Method.stmt, Array.getD_eq_getD_getElem?, Array.getElem?_push]
  split <;> rfl

theorem Grows.size_eq : grown.stmts.size = m.stmts.size + 1 := by
  obtain ⟨_, _, rfl⟩ := grows.same
  simp

theorem Grows.extends_ : Extends m grown := by
  refine ⟨?_, by rw [grows.size_eq]; omega, by rw [grows.locals]; omega, ?_⟩
  · obtain ⟨_, _, rfl⟩ := grows.same
    exact ⟨_, _, rfl⟩
  · intro id inside
    rw [grows.action_eq, if_neg (Nat.ne_of_lt inside)]

end

theorem DefinesOnce.grows (defines : DefinesOnce m) (grows : Grows m a grown)
    (new : ∀ l, a.defines? = some l → l = m.locals.size) : DefinesOnce grown := by
  refine ⟨?_, ?_, ?_⟩
  · intro id l defined
    rw [grows.action_eq] at defined
    rw [grows.locals]
    split at defined
    · simp [defined, new l defined]
    · exact lt_of_lt_of_le (defines.known id l defined) (Nat.le_add_right _ _)
  · intro id other l first second
    rw [grows.action_eq] at first second
    split at first
    next here =>
      split at second
      next there => rw [here, there]
      · exact absurd (defines.known other l second) (Nat.not_lt.mpr (le_of_eq (new l first).symm))
    · split at second
      · exact absurd (defines.known id l first) (Nat.not_lt.mpr (le_of_eq (new l second).symm))
      · exact defines.once id other l first second
  · intro l inside
    rw [grows.locals] at inside
    rw [grows.size_eq]
    by_cases old : l < m.locals.size
    · obtain ⟨id, made, defined⟩ := defines.all l old
      exact ⟨id, Nat.lt_succ_of_lt made, by rw [grows.action_eq, if_neg (Nat.ne_of_lt made), defined]⟩
    · refine ⟨m.stmts.size, Nat.lt_succ_self _, ?_⟩
      rw [grows.action_eq, if_pos rfl]
      cases defined : a.defines? with
      | none => simp [defined] at inside; exact absurd inside old
      | some target =>
        have target := new target defined
        rw [defined] at inside
        simp only [Option.toList_some, length_singleton] at inside
        have here : l = m.locals.size := le_antisymm (Nat.le_of_lt_succ inside) (Nat.le_of_not_lt old)
        rw [here, target]

/-! ## Instructions of a block -/

/-- All locals that registers hold lie below a bound. -/
def Below (regs : Registers) (bound : Nat) : Prop :=
  ∀ r id, regs.getD r none = some id → id < bound

theorem Below.mono {bound more : Nat} (below : Below regs bound) (le : bound ≤ more) :
    Below regs more :=
  fun r id held => lt_of_lt_of_le (below r id held) le

/-- The instruction behind another and the move of its result. -/
def nextIn (plan : Plan) (b : PlannedBlock) (index : Nat) : Nat :=
  if (moveIn plan b index).isSome then index + 2 else index + 1

/-- From an instruction to the end of its block: the statements made, and what the registers hold
first and last. `kept` is what they hold before the instruction `throwing`. -/
inductive Follows (file : Dex.File) (plan : Plan) (b : PlannedBlock) (throwing : Option Nat)
    (kept : Registers) (m : Ir.Method) : Nat → Registers → List StmtId → Registers → Prop where
  | finish {index : Nat} {regs : Registers} (ended : b.stop ≤ index) :
      Follows file plan b throwing kept m index regs [] regs
  | step {index new : Nat} {regs middle out : Registers} {op : Operation}
      {emitted : Option Action} {ids rest : List StmtId} (inside : index < b.stop)
      (does : operation? file (plan.source.at_ index) (moveIn plan b index) = some op)
      (emits : Emits plan.labelOf
        (plan.labelOf ((plan.source.at_ index).addr + UInt32.ofNat (plan.source.at_ index).size))
        new regs op emitted middle)
      (below : Below regs new) (makes : ids.map m.action = emitted.toList)
      (receives : meaning (plan.source.at_ index).op = .moveException →
        index = b.start ∧ b.isHandler = true)
      (keeps : throwing = some index → kept = regs)
      (more : Follows file plan b throwing kept m (nextIn plan b index) middle rest out) :
      Follows file plan b throwing kept m index regs (ids ++ rest) out

theorem Follows.congr {other : Ir.Method} {out : Registers}
    (follows : Follows file plan b throwing kept m index regs ids out)
    (same : ∀ id ∈ ids, other.action id = m.action id) :
    Follows file plan b throwing kept other index regs ids out := by
  induction follows with
  | finish ended => exact .finish ended
  | step inside does emits below makes receives keeps more ih =>
    refine .step inside does emits below ?_ receives keeps
      (ih fun id member => same id (mem_append_right _ member))
    rw [← makes]
    exact map_congr_left fun id member => same id (mem_append_left _ member)

theorem followInstructions_succ {left : Nat} {result : Registers × Frame}
    (done : followInstructions file plan b throwing (left + 1) index kept frame = .ok result) :
    (b.stop ≤ index ∧ result = (kept, frame)) ∨
    (index < b.stop ∧
      (meaning (plan.source.at_ index).op = .moveException →
        index = b.start ∧ b.isHandler = true) ∧
      ∃ after, (Step.instruction file plan (plan.source.at_ index) (moveIn plan b index)).run
          { frame with line := plan.source.lineAt (plan.source.at_ index).addr } =
          .ok ((), after) ∧
        followInstructions file plan b throwing left (nextIn plan b index)
          (if throwing = some index then frame.registers else kept) after = .ok result) := by
  unfold followInstructions at done
  dsimp only at done
  split at done
  next ended =>
    cases done
    exact .inl ⟨ended, rfl⟩
  next inside =>
    split at done
    · obtain ⟨_, failing, -⟩ := bind_ok.mp done
      cases failing
    next placed =>
      obtain ⟨⟨_, after⟩, lowered, more⟩ := bind_ok.mp done
      refine .inr ⟨Nat.lt_of_not_le inside, ?_, after, under_ok.mp lowered, more⟩
      intro receives
      simpa [receives] using placed

theorem Emits.below {after : Registers} {emitted : Option Action} {bound : Nat}
    (emits : Emits labelOf behind new regs op emitted after) (below : Below regs bound)
    (some : ∀ a, emitted = some a → ∀ l, a.defines? = some l → l < bound) : Below after bound := by
  have puts : ∀ {goal held}, Puts regs goal held after →
      (∀ id, held = Option.some id → id < bound) → Below after bound := by
    intro goal held puts small r id here
    by_cases same : r = goal
    · exact small id (by rw [← puts.there, ← same, here])
    · rcases puts.others r same with old | none
      · exact below r id (old ▸ here)
      · rw [none] at here
        cases here
  cases emits with
  | copy puts' => exact puts puts' fun id held => below _ id held
  | receive puts' | define operator reads puts' =>
    refine puts puts' fun id held => ?_
    cases held
    exact some _ rfl _ rfl
  | _ => exact below

theorem Emits.defines {after : Registers} (emits : Emits labelOf behind new regs op (some a) after)
    (l : LocalId) (defined : a.defines? = some l) : l = new := by
  cases emits <;> cases defined <;> rfl

/-- From one method to another, the listed statements were made in that order. -/
structure Makes (m : Ir.Method) (ids : List StmtId) (grown : Ir.Method) : Prop where
  grows : Extends m grown
  defines : DefinesOnce grown
  range : ids = List.range' m.stmts.size ids.length
  size : grown.stmts.size = m.stmts.size + ids.length

theorem Makes.refl (defines : DefinesOnce m) : Makes m [] m :=
  ⟨.refl m, defines, rfl, rfl⟩

theorem Makes.trans {a b c : Ir.Method} {more : List StmtId} (first : Makes a ids b)
    (second : Makes b more c) : Makes a (ids ++ more) c := by
  refine ⟨first.grows.trans second.grows, second.defines, ?_, ?_⟩
  · rw [length_append, ← range'_append_1, ← first.size, ← second.range, ← first.range]
  · rw [second.size, first.size, length_append, Nat.add_assoc]

theorem Grows.makes (grows : Grows m a grown) (defines : DefinesOnce m)
    (new : ∀ l, a.defines? = some l → l = m.locals.size) : Makes m [m.stmts.size] grown :=
  ⟨grows.extends_, defines.grows grows new, rfl, grows.size_eq⟩

theorem Makes.lt (makes : Makes m ids grown) {id : StmtId} (member : id ∈ ids) :
    m.stmts.size ≤ id ∧ id < grown.stmts.size := by
  rw [makes.range, mem_range'_1] at member
  rwa [makes.size]

theorem makes_of_lowers {after : Frame} (lowers : Step.Lowers labelOf behind frame op after)
    (defines : DefinesOnce frame.method) (below : Below frame.registers frame.method.locals.size) :
    ∃ emitted ids, Emits labelOf behind frame.method.locals.size frame.registers op emitted
        after.registers ∧
      after.stmts = ids.reverse ++ frame.stmts ∧ Makes frame.method ids after.method ∧
      ids.map after.method.action = emitted.toList ∧
      Below after.registers after.method.locals.size := by
  obtain ⟨emitted, emits, advances⟩ := lowers
  cases emitted with
  | none =>
    obtain ⟨method, stmts⟩ := advances
    rw [method]
    refine ⟨none, [], emits, by simpa using stmts, .refl defines, rfl, ?_⟩
    exact emits.below below (by simp)
  | some a =>
    obtain ⟨grows, stmts⟩ := advances
    refine ⟨some a, [frame.method.stmts.size], emits, by simpa using stmts,
      grows.makes defines emits.defines, ?_, ?_⟩
    · simp [grows.action_eq]
    · refine emits.below (below.mono grows.extends_.locals) ?_
      intro other same l defined
      cases same
      have here := emits.defines l defined
      rw [grows.locals, here]
      simp [defined]

theorem follows_of_followInstructions {left : Nat} {last : Registers} {after : Frame}
    (done : followInstructions file plan b throwing left index kept frame = .ok (last, after))
    (enough : b.stop ≤ index + left) (defines : DefinesOnce frame.method)
    (below : Below frame.registers frame.method.locals.size)
    (belowKept : Below kept frame.method.locals.size) :
    ∃ ids, after.stmts = ids.reverse ++ frame.stmts ∧ Makes frame.method ids after.method ∧
      Follows file plan b throwing last after.method index frame.registers ids after.registers ∧
      Below after.registers after.method.locals.size ∧ Below last after.method.locals.size ∧
      ∀ t, throwing = some t → t < index → last = kept := by
  induction left generalizing index kept frame with
  | zero =>
    cases done
    exact ⟨[], rfl, .refl defines, .finish (by omega), below, belowKept, fun _ _ _ => rfl⟩
  | succ left ih =>
    rcases followInstructions_succ done with ⟨ended, same⟩ | ⟨inside, receives, middle, lowered, more⟩
    · cases same
      exact ⟨[], rfl, .refl defines, .finish ended, below, belowKept, fun _ _ _ => rfl⟩
    · obtain ⟨op, does, lowers⟩ := Step.lowers_instruction lowered
      obtain ⟨emitted, ids, emits, stmts, makes, actions, belowMiddle⟩ :=
        makes_of_lowers lowers defines below
      have later : index < nextIn plan b index := by
        unfold nextIn
        split <;> omega
      have belowNow : Below (if throwing = some index then frame.registers else kept)
          middle.method.locals.size := by
        split
        · exact below.mono makes.grows.locals
        · exact belowKept.mono makes.grows.locals
      obtain ⟨rest, restStmts, restMakes, follows, belowAfter, belowLast, unchanged⟩ :=
        ih more (by omega) makes.defines belowMiddle belowNow
      refine ⟨ids ++ rest, ?_, makes.trans restMakes, ?_, belowAfter, belowLast, ?_⟩
      · rw [restStmts, stmts, reverse_append, append_assoc]
      · refine .step inside does emits below ?_ receives ?_ follows
        · rw [← actions]
          apply map_congr_left
          intro id member
          exact restMakes.grows.action id (makes.lt member).2
        · intro here
          have kept := unchanged index here later
          rwa [if_pos here] at kept
      · intro t here before
        have kept := unchanged t here (by omega)
        rwa [if_neg (by rw [here]; simp; omega)] at kept

/-! ## Joins -/

/-- Registers that hold the locals from one on, as many as there are. -/
def countingFrom (low count : Nat) : Registers := Array.ofFn fun r : Fin count => some (low + r)

theorem countingFrom_getD (low count r : Nat) :
    (countingFrom low count).getD r none = if r < count then some (low + r) else none := by
  by_cases inside : r < count
  · simp [countingFrom, inside]
  · simp [countingFrom, inside]

theorem below_countingFrom (low count : Nat) : Below (countingFrom low count) (low + count) := by
  intro r id held
  rw [countingFrom_getD] at held
  split at held
  next inside =>
    cases held
    exact Nat.add_lt_add_left inside low
  · cases held

theorem countingFrom_succ (low count : Nat) :
    countingFrom low (count + 1) = (countingFrom low count).push (some (low + count)) := by
  rw [countingFrom, Array.ofFn_succ]
  rfl

theorem addPhis_spec (left : Nat) (m : Ir.Method) (low made : Nat) (phis : List StmtId)
    (size : m.locals.size = low + made) (defines : DefinesOnce m) :
    ∃ grown ids, addPhis left m (countingFrom low made) phis =
        (grown, countingFrom low (made + left), phis.reverse ++ ids) ∧
      Makes m ids grown ∧ grown.locals.size = low + made + left ∧
      ids.map grown.action = (List.range' (low + made) left).map fun l => .phi l [] := by
  induction left generalizing m made phis with
  | zero => exact ⟨m, [], by simp [addPhis], .refl defines, by simpa using size, rfl⟩
  | succ left ih =>
    have grows := grows_defining m (rfl : (Action.phi m.locals.size []).defines? = _) .top none
    have makes := grows.makes defines (by simp [Action.defines?])
    obtain ⟨grown, ids, equal, more, locals, actions⟩ :=
      ih _ (made + 1) (m.stmts.size :: phis)
        (by rw [grows.locals, size]; simp [Action.defines?]; omega) makes.defines
    refine ⟨grown, m.stmts.size :: ids, ?_, makes.trans more, by omega, ?_⟩
    · rw [countingFrom_succ, ← size, Nat.add_right_comm made 1 left, reverse_cons,
        append_assoc] at equal
      exact equal
    · rw [range'_succ, map_cons, map_cons, actions,
        more.grows.action m.stmts.size (by rw [grows.size_eq]; omega), grows.action_eq, if_pos rfl,
        size]
      rfl

theorem newPhis_spec (count : Nat) (defines : DefinesOnce m) :
    ∃ grown ids, newPhis count m = (grown, countingFrom m.locals.size count, ids) ∧
      Makes m ids grown ∧ grown.locals.size = m.locals.size + count ∧
      ids.map grown.action = (List.range' m.locals.size count).map fun l => .phi l [] := by
  have none : countingFrom m.locals.size 0 = #[] := by simp [countingFrom]
  obtain ⟨grown, ids, equal, makes, locals, actions⟩ :=
    addPhis_spec count m m.locals.size 0 [] (Nat.add_zero _).symm defines
  rw [none, Nat.zero_add, reverse_nil, nil_append] at equal
  exact ⟨grown, ids, equal, makes, locals, actions⟩

/-! ## Blocks -/

/-- The instruction before which the registers of a block are kept. -/
def throwingOf (plan : Plan) (b : PlannedBlock) : Option Nat :=
  if b.exSuccs.isEmpty then none else plan.source.throwingIn? b.start b.stop

/-- The statements of a block that is entered with some registers: its instructions, or the way on
from an exception. -/
structure Body (file : Dex.File) (plan : Plan) (b : PlannedBlock) (m : Ir.Method)
    (into : Registers) (f : Followed) : Prop where
  front : ∀ next, b.leadsTo = some next →
    f.out = into ∧ f.body.map m.action = [.goto (plan.block next).label]
  instructions : b.leadsTo = none →
    Follows file plan b (throwingOf plan b) f.beforeThrow m b.start into f.body f.out

theorem Body.extends_ (body : Body file plan b m into f) (grows : Extends m grown)
    (made : ∀ id ∈ f.body, id < m.stmts.size) : Body file plan b grown into f := by
  refine ⟨?_, ?_⟩
  · intro next leads
    obtain ⟨out, actions⟩ := body.front next leads
    refine ⟨out, ?_⟩
    rw [← actions]
    exact map_congr_left fun id member => grows.action id (made id member)
  · intro leads
    exact (body.instructions leads).congr fun id member => grows.action id (made id member)

theorem followBlock_spec {phis : List StmtId}
    (done : followBlock file plan b m into phis = .ok (grown, f)) (defines : DefinesOnce m)
    (below : Below into m.locals.size) :
    f.phis = phis ∧ Makes m f.body grown ∧ Body file plan b grown into f ∧
      Below f.out grown.locals.size ∧ Below f.beforeThrow grown.locals.size := by
  have nothing : ∀ bound, Below #[] bound := by
    intro bound r id held
    simp at held
  unfold followBlock at done
  cases leads : b.leadsTo with
  | some next =>
    rw [leads] at done
    cases done
    have grows := grows_plain m (rfl : (Action.goto (plan.block next).label).defines? = none) none
    refine ⟨rfl, grows.makes defines (by simp [Action.defines?]), ⟨?_, ?_⟩,
      below.mono grows.extends_.locals, nothing _⟩
    · intro other same
      cases leads.symm.trans same
      have action := grows.action_eq m.stmts.size
      rw [if_pos rfl] at action
      exact ⟨rfl, congrArg ([·]) action⟩
    · intro same
      rw [leads] at same
      cases same
  | none =>
    rw [leads] at done
    obtain ⟨⟨last, after⟩, followed, ending⟩ := bind_ok.mp done
    cases ending
    obtain ⟨ids, stmts, makes, follows, belowAfter, belowLast, -⟩ :=
      follows_of_followInstructions followed (by omega) defines below (nothing _)
    have body : after.stmts.reverse = ids := by simp [stmts]
    refine ⟨rfl, by rwa [body], ⟨?_, ?_⟩, belowAfter, belowLast⟩
    · intro other same
      rw [leads] at same
      cases same
    · intro _
      rwa [body]

abbrev followed? (done : Progress) (k : Nat) : Option Followed := (done[k]?).join

def Known (done : Progress) (e : Edge) : Prop :=
  ∀ source, e.source = some source → (followed? done source).isSome

/-- What is known of a block that was followed. Locals from `low` on were made for it or later. -/
structure Built (file : Dex.File) (plan : Plan) (entry : Entry) (count : Nat) (m : Ir.Method)
    (done : Progress) (k : Nat) (f : Followed) (low : Nat) (into : Registers) : Prop where
  joins : (plan.block k).isJoin = true → into = countingFrom low count ∧
    f.phis.map m.action = (List.range' low count).map fun l => .phi l []
  single : (plan.block k).isJoin = false → f.phis = [] ∧
    ∃ e, (plan.block k).preds = [e] ∧ Known done e ∧ into = registersAlong entry done e
  body : Body file plan (plan.block k) m into f
  earlier : ∃ e ∈ (plan.block k).preds, Known done e ∧ Below (registersAlong entry done e) low
  out : Below f.out m.locals.size
  thrown : Below f.beforeThrow m.locals.size
  made : ∀ id ∈ f.phis ++ f.body, id < m.stmts.size

def idsOf (done : Progress) (k : Nat) : List StmtId :=
  match followed? done k with
  | some f => f.phis ++ f.body
  | none => []

structure Progressed (file : Dex.File) (plan : Plan) (entry : Entry) (count : Nat)
    (start : Ir.Method) (ks : List Nat) (m : Ir.Method) (done : Progress) : Prop where
  size : done.size = plan.blocks.size
  reached : ∀ k, (followed? done k).isSome ↔ k ∈ ks
  built : ∀ k f, followed? done k = some f →
    ∃ low into, Built file plan entry count m done k f low into
  entry : Below entry.out m.locals.size
  makes : Makes start (ks.flatMap (idsOf done)) m

theorem followed_set (done : Progress) (inside : k < done.size) (f : Followed) (other : Nat) :
    followed? (done.setIfInBounds k (some f)) other =
      if other = k then some f else followed? done other := by
  simp only [followed?, Array.getElem?_setIfInBounds]
  by_cases same : k = other
  · subst same
    simp [inside]
  · simp [same, Ne.symm same]

theorem Known.set {e : Edge} (known : Known done e) (inside : k < done.size)
    (new : followed? done k = none) (f : Followed) (entry : Entry) :
    Known (done.setIfInBounds k (some f)) e ∧
      registersAlong entry (done.setIfInBounds k (some f)) e = registersAlong entry done e := by
  cases from_ : e.source with
  | none =>
    refine ⟨fun source same => ?_, by simp [registersAlong, from_]⟩
    rw [from_] at same
    cases same
  | some source =>
    have there := known source from_
    have other : source ≠ k := by
      rintro rfl
      rw [new] at there
      cases there
    have same := followed_set done inside f source
    rw [if_neg other] at same
    refine ⟨?_, ?_⟩
    · intro other here
      cases from_.symm.trans here
      rwa [same]
    · simp only [registersAlong, from_]
      rw [show (done.setIfInBounds k (some f))[source]?.join = done[source]?.join from same]

theorem Built.set {entry : Entry} {count : Nat} {j : Nat} {g : Followed} {low : Nat}
    (built : Built file plan entry count m done j g low into) (grows : Extends m grown)
    (inside : k < done.size) (new : followed? done k = none) (f : Followed) :
    Built file plan entry count grown (done.setIfInBounds k (some f)) j g low into := by
  refine ⟨?_, ?_, built.body.extends_ grows fun id member =>
    built.made id (mem_append_right _ member), ?_, built.out.mono grows.locals,
    built.thrown.mono grows.locals, fun id member => lt_of_lt_of_le (built.made id member)
    grows.stmts⟩
  · intro join
    obtain ⟨registers, actions⟩ := built.joins join
    refine ⟨registers, ?_⟩
    rw [← actions]
    exact map_congr_left fun id member =>
      grows.action id (built.made id (mem_append_left _ member))
  · intro alone
    obtain ⟨none, e, preds, known, registers⟩ := built.single alone
    obtain ⟨still, same⟩ := known.set inside new f entry
    exact ⟨none, e, preds, still, by rw [same, registers]⟩
  · obtain ⟨e, member, known, below⟩ := built.earlier
    obtain ⟨still, same⟩ := known.set inside new f entry
    exact ⟨e, member, still, by rwa [same]⟩

variable {file : Dex.File} {plan : Plan} {entry : Entry} {count : Nat} {start m : Ir.Method}
  {ks : List Nat} {done : Progress}

section

variable (progressed : Progressed file plan entry count start ks m done)

include progressed

theorem Progressed.below {e : Edge}
    (known : Known done e) : Below (registersAlong entry done e) m.locals.size := by
  unfold registersAlong
  cases from_ : e.source with
  | none => exact progressed.entry
  | some source =>
    obtain ⟨f, followed⟩ := Option.isSome_iff_exists.mp (known source from_)
    obtain ⟨low, into, built⟩ := progressed.built source f followed
    dsimp only
    rw [show done[source]?.join = some f from followed]
    dsimp only
    split
    · exact built.thrown
    · exact built.out

theorem Progressed.way (sound : Plan.Sound plan.source plan.blocks)
    (ordered : Plan.Ordered plan.blocks (ks ++ k :: rest)) :
    ∃ e ∈ (plan.block k).preds, Known done e := by
  by_cases zero : k = 0
  · rw [zero]
    refine ⟨⟨none, false⟩, sound.entry, ?_⟩
    intro source same
    cases same
  · obtain ⟨source, member, edge⟩ := ordered.earlier ks k rest rfl zero
    have inside := ordered.inside source (mem_append_left _ member)
    have entered := sound.entered source inside
    rcases mem_append.mp edge with normal | thrown
    · refine ⟨⟨some source, false⟩, entered.normal k normal, ?_⟩
      intro other same
      cases same
      exact (progressed.reached source).mpr member
    · refine ⟨⟨some source, true⟩, (entered.thrown k thrown).1, ?_⟩
      intro other same
      cases same
      exact (progressed.reached source).mpr member

end

theorem flatMap_idsOf_set (inside : k < done.size) (new : k ∉ ks) (f : Followed) :
    (ks ++ [k]).flatMap (idsOf (done.setIfInBounds k (some f))) =
      ks.flatMap (idsOf done) ++ (f.phis ++ f.body) := by
  rw [flatMap_append]
  congr 1
  · apply flatMap_congr
    intro j member
    have other : j ≠ k := fun same => new (same ▸ member)
    rw [idsOf, followed_set done inside, if_neg other]
    rfl
  · simp [idsOf, followed_set done inside]

theorem Progressed.step (progressed : Progressed file plan entry count start ks m done)
    (sound : Plan.Sound plan.source plan.blocks) {k : Nat} {rest : List Nat}
    (ordered : Plan.Ordered plan.blocks (ks ++ k :: rest)) {middle grown : Ir.Method}
    {into : Registers} {phis : List StmtId} {f : Followed}
    (entered : (if (plan.block k).isJoin then newPhis count m
      else (m, ((plan.block k).preds.head?.map (registersAlong entry done)).getD #[], [])) =
      (middle, into, phis))
    (followed : followBlock file plan (plan.block k) middle into phis = .ok (grown, f)) :
    Progressed file plan entry count start (ks ++ [k]) grown (done.setIfInBounds k (some f)) := by
  have inside : k < done.size := by
    rw [progressed.size]
    exact ordered.inside k (by simp)
  have absent : k ∉ ks := by
    intro member
    exact (nodup_append.mp ordered.nodup).2.2 k member k (by simp) rfl
  have new : followed? done k = none := by
    have reached := progressed.reached k
    simpa [absent] using reached
  obtain ⟨e, way, known⟩ := progressed.way sound ordered
  -- The joins come first, one for each register, unless the block has one way in.
  have phisMade : Makes m phis middle ∧ Below into middle.locals.size ∧
      ((plan.block k).isJoin = true → into = countingFrom m.locals.size count ∧
        phis.map middle.action = (List.range' m.locals.size count).map fun l => .phi l []) ∧
      ((plan.block k).isJoin = false → phis = [] ∧
        ∃ e, (plan.block k).preds = [e] ∧ Known done e ∧ into = registersAlong entry done e) := by
    cases join : (plan.block k).isJoin with
    | true =>
      rw [join, if_pos rfl] at entered
      obtain ⟨made, ids, equal, makes, locals, actions⟩ :=
        newPhis_spec count progressed.makes.defines
      rw [equal] at entered
      cases entered
      refine ⟨makes, ?_, fun _ => ⟨rfl, actions⟩, by simp⟩
      rw [locals]
      exact below_countingFrom _ _
    | false =>
      rw [join, if_neg (by simp)] at entered
      cases entered
      have only : (plan.block k).preds = [e] := by
        simp only [PlannedBlock.isJoin, Bool.or_eq_false_iff, decide_eq_false_iff_not] at join
        rcases preds : (plan.block k).preds with _ | ⟨other, _ | ⟨another, others⟩⟩
        · rw [preds] at way
          cases way
        · rw [preds] at way
          rw [mem_singleton.mp way]
        · rw [preds] at join
          simp at join
      rw [only]
      exact ⟨.refl progressed.makes.defines, progressed.below known, by simp,
        fun _ => ⟨rfl, e, rfl, known, rfl⟩⟩
  obtain ⟨makesPhis, belowInto, joins, single⟩ := phisMade
  obtain ⟨samePhis, makesBody, body, belowOut, belowThrow⟩ :=
    followBlock_spec followed makesPhis.defines belowInto
  have makes : Makes m (f.phis ++ f.body) grown := by
    rw [samePhis]
    exact makesPhis.trans makesBody
  obtain ⟨knownNow, sameNow⟩ := known.set inside new f entry
  refine ⟨by simpa using progressed.size, ?_, ?_, progressed.entry.mono makes.grows.locals, ?_⟩
  · intro j
    rw [followed_set done inside]
    by_cases same : j = k
    · simp [same]
    · rw [if_neg same, progressed.reached j]
      simp [same]
  · intro j g here
    rw [followed_set done inside] at here
    split at here
    next same =>
      cases here
      subst same
      refine ⟨m.locals.size, into, ?_, ?_, body, ⟨e, way, knownNow, ?_⟩, belowOut, belowThrow,
        fun id member => (makes.lt member).2⟩
      · intro join
        obtain ⟨registers, actions⟩ := joins join
        refine ⟨registers, ?_⟩
        rw [← actions, samePhis]
        exact map_congr_left fun id member => makesBody.grows.action id (makesPhis.lt member).2
      · intro alone
        obtain ⟨none, e, preds, known, registers⟩ := single alone
        obtain ⟨still, same⟩ := known.set inside new f entry
        exact ⟨samePhis.trans none, e, preds, still, by rw [same, registers]⟩
      · rw [sameNow]
        exact progressed.below known
    · obtain ⟨low, into, built⟩ := progressed.built j g here
      exact ⟨low, into, built.set makes.grows inside new f⟩
  · rw [flatMap_idsOf_set inside absent]
    exact progressed.makes.trans makes

theorem followAll_spec (sound : Plan.Sound plan.source plan.blocks)
    (ordered : Plan.Ordered plan.blocks (ks ++ rest))
    (progressed : Progressed file plan entry count start ks m done) {after : Progress}
    (followed : followAll file plan entry count rest m done = .ok (grown, after)) :
    Progressed file plan entry count start (ks ++ rest) grown after := by
  induction rest generalizing ks m done with
  | nil =>
    cases followed
    simpa using progressed
  | cons k rest ih =>
    unfold followAll at followed
    obtain ⟨⟨middle, f⟩, block, more⟩ := bind_ok.mp followed
    have next := progressed.step sound ordered rfl block
    have order : ks ++ k :: rest = ks ++ [k] ++ rest := by simp
    rw [order] at ordered ⊢
    exact ih ordered next more

end DexLift.Lower
