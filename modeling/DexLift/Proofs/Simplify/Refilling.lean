import DexLift.Proofs.Simplify.Filling

/-!
# Moving values a second time

The pass comes by every reader once and leaves it when no value can move there any more.
Afterwards statements in front of the reader may still go, when their own values move to
readers further on. A value is then free to move that was held up by one of them. That takes
a value that is not pure and moves over the reader, so the reader is a pure assignment; it
reads a value that is not pure either, from in front of the one that went. Where this does
not occur, a second run finds nothing to move.
-/

namespace DexLift.Ir

open List

variable {m n : Method} {stmt : StmtId}

/-! ## What is passed over -/

theorem passedOver_congr {before : List StmtId} (same : ∀ id ∈ before, n.action id = m.action id) :
    passedOver n stmt before = passedOver m stmt before := by
  induction before with
  | nil => rfl
  | cons id rest ih =>
    rw [passedOver, passedOver, same id mem_cons_self,
      ih fun other later => same other (.tail _ later)]

theorem passedOver_of_sublist {front old between : List StmtId} (sub : front.Sublist old)
    (nodup : old.Nodup) (plain : ∀ x ∈ old, x ∉ front →
      (m.action x).isLabel = false ∧ (m.action x).isPhi = false ∧ (m.action x).endsBlock = false)
    (passed : passedOver m stmt front = some between) :
    ∃ more, passedOver m stmt old = some more ∧ ∀ x ∈ more, x ∈ between ∨ x ∉ front := by
  induction sub generalizing between with
  | slnil => cases passed
  | @cons front old x sub ih =>
    obtain ⟨absent, distinct⟩ := nodup_cons.mp nodup
    have new : x ∉ front := fun inside => absent (sub.subset inside)
    obtain ⟨more, passedOld, apart⟩ := ih distinct
      (fun y later => plain y (.tail _ later)) passed
    have other : x ≠ stmt := by
      rintro rfl
      obtain ⟨rest, rfl, -⟩ := passedOver_spec passed
      exact new (by simp)
    obtain ⟨notLabel, notPhi, goesOn⟩ := plain x mem_cons_self new
    refine ⟨x :: more, ?_, ?_⟩
    · simp [passedOver, other, notLabel, notPhi, goesOn, passedOld]
    · intro y listed
      rcases mem_cons.mp listed with rfl | later
      · exact .inr new
      · exact apart y later
  | @cons_cons front old x sub ih =>
    obtain ⟨absent, distinct⟩ := nodup_cons.mp nodup
    rw [passedOver] at passed ⊢
    split at passed
    next here =>
      rw [if_pos here]
      exact ⟨[], rfl, fun y contrary => absurd contrary not_mem_nil⟩
    next other =>
      rw [if_neg other]
      dsimp only at passed ⊢
      split at passed
      · cases passed
      next goesOn =>
        rw [if_neg goesOn]
        obtain ⟨further, passedLater, rfl⟩ := Option.map_eq_some_iff.mp passed
        have elsewhere : ∀ y ∈ old, y ∉ front → y ∉ x :: front := by grind
        obtain ⟨more, passedOld, apart⟩ := ih distinct
          (fun y later outside => plain y (.tail _ later)
            (elsewhere y later outside)) passedLater
        refine ⟨x :: more, by rw [passedOld]; rfl, fun y listed => ?_⟩
        rcases mem_cons.mp listed with rfl | later
        · exact .inl mem_cons_self
        · obtain ⟨rest, split, -⟩ := passedOver_spec passedOld
          refine (apart y later).imp (mem_cons_of_mem _) (elsewhere y ?_)
          rw [split]
          exact mem_append_left _ later

/-! ## What moving values leaves alone -/

namespace Method

structure SameLocals (m n : Method) : Prop where
  chain : n.chain = m.chain
  locals : n.locals = m.locals
  size : n.stmts.size = m.stmts.size
  defines : ∀ id, (n.action id).defines? = (m.action id).defines?

theorem SameLocals.refl (m : Method) : m.SameLocals m := ⟨rfl, rfl, rfl, fun _ => rfl⟩

theorem SameLocals.trans {k : Method} (first : m.SameLocals n) (second : n.SameLocals k) :
    m.SameLocals k where
  chain := second.chain.trans first.chain
  locals := second.locals.trans first.locals
  size := second.size.trans first.size
  defines id := (second.defines id).trans (first.defines id)

end Method

/-! ## Values that can move -/

namespace ReadOnce

variable {once : ReadOnce} {before : List StmtId} {nodes : List Expr} {l : LocalId} {value : Expr}

theorem definition?_eq_some (plain : m.chain = none) :
    once.definition? m l = some (stmt, value) ↔ once.uses.getD l 0 = 1 ∧ once.phiUses.getD l 0 = 0 ∧
      once.defs.getD l none = some stmt ∧ (∃ target, m.action stmt = .assign target value) ∧
        ∀ desc args, value ≠ .node (.new desc) args := by
  unfold definition?
  by_cases counted : once.uses.getD l 0 = 1 ∧ once.phiUses.getD l 0 = 0
  · rw [if_neg (by simp [counted])]
    cases once.defs.getD l none with
    | none => simp
    | some noted =>
      have attached : m.isDetached noted = false := by
        unfold Method.isDetached
        rw [plain]
      dsimp only
      rw [attached, if_neg Bool.false_ne_true]
      split
      next desc args action =>
        refine ⟨nofun, ?_⟩
        rintro ⟨-, -, same, ⟨target, action'⟩, other⟩
        cases same
        rw [action] at action'
        exact absurd (Action.assign.inj action').2.symm (other desc args)
      next target found other action =>
        constructor
        · intro same
          cases same
          exact ⟨counted.1, counted.2, rfl, ⟨target, action⟩, fun desc args => other desc args⟩
        · rintro ⟨-, -, same, ⟨target', action'⟩, -⟩
          cases same
          rw [action] at action'
          rw [(Action.assign.inj action').2]
      next none =>
        refine ⟨nofun, ?_⟩
        rintro ⟨-, -, same, ⟨target, action⟩, other⟩
        cases same
        exact absurd action (none target value)
  · rw [if_pos (by simpa [imp_iff_not_or] using counted)]
    exact ⟨nofun, fun both => absurd ⟨both.1, both.2.1⟩ counted⟩

theorem candidate?_eq_none : once.candidate? m before nodes = none ↔
    ∀ later node earlier l stmt value between, nodes = later ++ node :: earlier →
      node.local? = some l → once.definition? m l = some (stmt, value) →
      passedOver m stmt before = some between →
      ¬ (value.isPure = true ∨
        (∀ id ∈ between, (m.action id).isPure = true) ∧ earlier.all Expr.nodeIsPure = true) := by
  constructor
  · intro none
    induction nodes with
    | nil =>
      intro later node earlier l stmt value between split
      simp at split
    | cons first rest ih =>
      rw [candidate?, Option.orElse_eq_orElse, Option.orElse_eq_or, Option.or_eq_none_iff] at none
      obtain ⟨here, behind⟩ := none
      intro later node earlier l stmt value between split reads definition passed moves
      cases later with
      | cons skipped later =>
        obtain ⟨-, rest⟩ := List.cons.inj split
        exact ih behind later node earlier l stmt value between rest reads
          definition passed moves
      | nil =>
        obtain ⟨rfl, rfl⟩ := List.cons.inj split
        have free : (value.isPure || (between.all fun id => (m.action id).isPure) &&
            rest.all Expr.nodeIsPure) = true := by
          simpa only [Bool.or_eq_true, Bool.and_eq_true, all_eq_true] using moves
        simp only [reads, definition, passed, Option.bind_eq_bind, Option.bind_some, free, if_true]
          at here
        cases here
  · intro heldUp
    by_contra found
    obtain ⟨⟨l, stmt, value⟩, found⟩ := Option.ne_none_iff_exists'.mp found
    obtain ⟨later, node, earlier, between, split, reads, definition, passed, moves⟩ :=
      candidate?_spec found
    exact heldUp later node earlier l stmt value between split reads definition passed moves

theorem candidate?_congr (plain : m.chain = none) (plain' : n.chain = none)
    (same : ∀ id ∈ before, n.action id = m.action id)
    (heldUp : once.candidate? m before nodes = none) : once.candidate? n before nodes = none := by
  rw [candidate?_eq_none] at heldUp ⊢
  intro later node earlier l stmt value between split reads definition passed moves
  rw [passedOver_congr same] at passed
  obtain ⟨rest, front, -⟩ := passedOver_spec passed
  rw [definition?_eq_some plain', same stmt (by simp [front])] at definition
  refine heldUp later node earlier l stmt value between split reads
    ((definition?_eq_some plain).mpr definition) passed (moves.imp_right fun both => ⟨?_, both.2⟩)
  intro id listed
  rw [← same id (by simp [front, listed])]
  exact both.1 id listed

/-! ## Readers the pass has come by -/

/-- The pass has left a reader, when nothing could move to it over some statements. Those that have
gone since were assignments; when the value was not pure, it moved over the reader, which is pure
itself. -/
structure Left (once : ReadOnce) (m : Method) (front : List StmtId) (reader : StmtId)
    (old : List StmtId) : Prop where
  fewer : front.Sublist old
  heldUp : once.candidate? m old (m.action reader).evalOrder.reverse = none
  gone : ∀ x ∈ old, x ∉ front → ∃ target value, m.action x = .assign target value ∧
    (value.isPure = true ∨ (m.action reader).isPure = true)

/-- What is known when the pass has come by some statements, of which some have gone. -/
structure Behind (once : ReadOnce) (m : Method) (seen before : List StmtId) : Prop where
  plain : m.chain = none
  fewer : before.Sublist seen
  left : ∀ later reader front, before = later ++ reader :: front →
    (m.action reader).isReader = true →
      ∃ old, once.Left m front reader old ∧ (reader :: old).Sublist seen

variable {seen rest : List StmtId} {reader : StmtId}

theorem Behind.move (behind : once.Behind m seen before) (distinct : (reader :: seen).Nodup)
    (made : reader < m.stmts.size)
    (found : once.candidate? m before (m.action reader).evalOrder.reverse = some (l, stmt, value))
    (s : Stmt) : once.Behind (m.overwrite reader s) seen (before.erase stmt) := by
  obtain ⟨absent, nodup⟩ := nodup_cons.mp distinct
  have same : ∀ id ∈ seen, (m.overwrite reader s).action id = m.action id := by
    intro id inside
    rw [m.action_overwrite made, if_neg]
    rintro rfl
    exact absent inside
  obtain ⟨_, _, earlier, between, -, -, definition, passed, moves⟩ := candidate?_spec found
  obtain ⟨-, -, -, target, action⟩ := definition?_spec definition
  obtain ⟨more, rfl, -⟩ := passedOver_spec passed
  have apart : stmt ∉ between := by
    have middle := nodup_cons.mp (nodup_middle.mp (behind.fewer.nodup nodup))
    exact fun inside => middle.1 (mem_append_left _ inside)
  have erased : (between ++ stmt :: more).erase stmt = between ++ more := by
    rw [erase_append_right _ apart, erase_cons_head]
  have fewer : (between ++ more).Sublist (between ++ stmt :: more) :=
    (Sublist.refl between).append (sublist_cons_self stmt more)
  -- A reader keeps what is known of it when the statement that goes was not in front of it.
  have stays : ∀ later other front, between ++ stmt :: more = later ++ other :: front →
      (m.action other).isReader = true →
        ∃ old, once.Left (m.overwrite reader s) front other old ∧ (other :: old).Sublist seen := by
    intro later other front split isReader
    obtain ⟨old, left, sub⟩ := behind.left later other front split isReader
    have inside : ∀ id ∈ old, id ∈ seen := fun id listed =>
      sub.subset (.tail _ listed)
    have action := same other (sub.subset mem_cons_self)
    refine ⟨old, ⟨left.fewer, ?_, ?_⟩, sub⟩
    · rw [action]
      exact candidate?_congr behind.plain behind.plain (fun id listed => same id (inside id listed))
        left.heldUp
    · intro x listed outside
      rw [action, same x (inside x listed)]
      exact left.gone x listed outside
  rw [erased]
  refine ⟨behind.plain, fewer.trans behind.fewer, fun later other front split isReader => ?_⟩
  have isReader' : (m.action other).isReader = true := by
    have listed : other ∈ between ++ more := by simp [split]
    rwa [same other (behind.fewer.subset (fewer.subset listed))] at isReader
  rcases append_eq_append_iff.mp split with ⟨later', rfl, rfl⟩ | ⟨gap, rfl, behindGap⟩
  · exact stays (between ++ stmt :: later') other front (by simp) isReader'
  · cases gap with
    | nil => exact stays (later ++ [stmt]) other front (by simp [behindGap]) isReader'
    | cons first gap =>
      obtain ⟨rfl, rfl⟩ := cons.inj behindGap
      obtain ⟨old, left, sub⟩ := stays later other (gap ++ stmt :: more) (by simp) isReader'
      refine ⟨old, ⟨?_, left.heldUp, fun x listed outside => ?_⟩, sub⟩
      · exact (((Sublist.refl gap).append (sublist_cons_self stmt more))).trans left.fewer
      · by_cases itself : x = stmt
        · have here := sub.subset (.tail _ listed)
          rw [same x here, same other (sub.subset mem_cons_self), itself]
          refine ⟨target, value, action, moves.imp_right fun both => both.1 other (by simp)⟩
        · refine left.gone x listed fun inside => outside ?_
          simp only [mem_append, mem_cons] at inside
          exact mem_append.mpr (inside.imp_right fun either => either.resolve_left itself)

theorem Behind.fill (fuel : Nat) (behind : once.Behind m seen before)
    (distinct : (reader :: seen).Nodup) (made : reader < m.stmts.size) :
    once.Behind (once.fill reader fuel m before).1 seen (once.fill reader fuel m before).2 ∧
      (before.length < fuel → once.candidate? (once.fill reader fuel m before).1
        (once.fill reader fuel m before).2
          ((once.fill reader fuel m before).1.action reader).evalOrder.reverse = none) := by
  induction fuel generalizing m before with
  | zero => exact ⟨behind, fun less => absurd less (Nat.not_lt_zero _)⟩
  | succ fuel ih =>
    rw [ReadOnce.fill]
    split
    next none => exact ⟨behind, fun _ => none⟩
    next l stmt value found =>
      dsimp only
      rw [if_pos (by rw [behind.plain]; rfl)]
      have moved := behind.move distinct made found
        ⟨(m.action reader).replaceLocal l value, (m.stmt reader).line <|> (m.stmt stmt).line⟩
      have shorter : (before.erase stmt).length < before.length := by
        obtain ⟨-, -, -, between, -, -, -, passed, -⟩ := candidate?_spec found
        obtain ⟨more, rfl, -⟩ := passedOver_spec passed
        rw [length_erase_of_mem (by simp)]
        simp
      have size : reader < (m.overwrite reader ⟨(m.action reader).replaceLocal l value,
          (m.stmt reader).line <|> (m.stmt stmt).line⟩).stmts.size :=
        made.trans_eq Array.size_setIfInBounds.symm
      obtain ⟨done, settled⟩ := ih moved size
      exact ⟨done, fun less => settled (by omega)⟩

theorem Behind.next (behind : once.Behind m seen before) (settled : (m.action reader).isReader = true →
    once.candidate? m before (m.action reader).evalOrder.reverse = none) :
    once.Behind m (reader :: seen) (reader :: before) := by
  refine ⟨behind.plain, behind.fewer.cons_cons _, fun later other front split isReader => ?_⟩
  cases later with
  | nil =>
    obtain ⟨rfl, rfl⟩ := cons.inj split
    refine ⟨before, ⟨.refl _, settled isReader, fun x listed outside => absurd listed outside⟩, ?_⟩
    exact behind.fewer.cons_cons _
  | cons first later =>
    obtain ⟨rfl, rfl⟩ := cons.inj split
    obtain ⟨old, left, sub⟩ := behind.left later other front rfl isReader
    exact ⟨old, left, sub.cons _⟩

theorem sameLocals_fill (once : ReadOnce) (before : List StmtId) (fuel : Nat) (plain : m.chain = none) (made : reader < m.stmts.size) :
    m.SameLocals (once.fill reader fuel m before).1 := by
  induction fuel generalizing m before with
  | zero => exact .refl m
  | succ fuel ih =>
    rw [ReadOnce.fill]
    split
    · exact .refl m
    next l stmt value found =>
      dsimp only
      rw [if_pos (by rw [plain]; rfl)]
      have written : m.SameLocals (m.overwrite reader ⟨(m.action reader).replaceLocal l value,
          (m.stmt reader).line <|> (m.stmt stmt).line⟩) := by
        refine ⟨rfl, rfl, Array.size_setIfInBounds, fun id => ?_⟩
        rw [m.action_overwrite made]
        split
        next same => rw [same, Action.defines?_replaceLocal]
        · rfl
      exact written.trans (ih _ plain (written.size ▸ made))

theorem sameLocals_fillAll (once : ReadOnce) (before : List StmtId) (plain : m.chain = none)
    (made : ∀ id ∈ rest, id < m.stmts.size) : m.SameLocals (once.fillAll rest m before).1 := by
  induction rest generalizing m before with
  | nil => exact .refl m
  | cons id rest ih =>
    have attached : m.chain.isNone = true := Option.isNone_iff_eq_none.mpr plain
    have here := made id mem_cons_self
    rw [ReadOnce.fillAll]
    dsimp only
    rw [if_pos attached]
    split
    · have filled := sameLocals_fill once before (before.length + 1) plain here
      refine filled.trans (ih _ (filled.chain.trans plain) fun other later => ?_)
      exact filled.size ▸ made other (.tail _ later)
    · exact ih _ plain fun other later => made other (.tail _ later)

theorem Behind.fillAll (behind : once.Behind m seen before) (distinct : (rest.reverse ++ seen).Nodup)
    (made : ∀ id ∈ rest, id < m.stmts.size) :
    once.Behind (once.fillAll rest m before).1 (rest.reverse ++ seen)
      (once.fillAll rest m before).2 := by
  induction rest generalizing m seen before with
  | nil => exact behind
  | cons id rest ih =>
    rw [reverse_cons, append_assoc, singleton_append] at distinct ⊢
    have here := made id mem_cons_self
    have new : (id :: seen).Nodup := (nodup_append.mp distinct).2.1
    have attached : m.chain.isNone = true := Option.isNone_iff_eq_none.mpr behind.plain
    rw [ReadOnce.fillAll]
    dsimp only
    rw [if_pos attached]
    split
    · obtain ⟨filled, settled⟩ := behind.fill (before.length + 1) new here
      have same := sameLocals_fill once before (before.length + 1) behind.plain here
      refine ih (filled.next fun _ => settled (Nat.lt_succ_self _)) distinct ?_
      exact fun other later => same.size ▸ made other (.tail _ later)
    next notReader =>
      exact ih (behind.next fun isReader => absurd isReader notReader) distinct
        fun other later => made other (.tail _ later)

theorem Behind.of_same (behind : once.Behind m seen before) (plain : n.chain = none)
    (same : ∀ id, n.action id = m.action id) : once.Behind n seen before := by
  refine ⟨plain, behind.fewer, fun later other front split isReader => ?_⟩
  rw [same] at isReader
  obtain ⟨old, left, sub⟩ := behind.left later other front split isReader
  refine ⟨old, ⟨left.fewer, ?_, fun x listed outside => ?_⟩, sub⟩
  · rw [same]
    exact candidate?_congr behind.plain plain (fun id _ => same id) left.heldUp
  · rw [same, same]
    exact left.gone x listed outside

theorem fillAll_self (plain : m.chain = none) (heldUp : ∀ earlier reader later,
    rest = earlier ++ reader :: later → (m.action reader).isReader = true →
      once.candidate? m (earlier.reverse ++ before) (m.action reader).evalOrder.reverse = none) :
    once.fillAll rest m before = (m, rest.reverse ++ before) := by
  induction rest generalizing before with
  | nil => rfl
  | cons id rest ih =>
    have here : (if (m.action id).isReader then once.fill id (before.length + 1) m before
        else (m, before)) = (m, before) := by
      split
      next isReader =>
        have none := heldUp [] id rest rfl isReader
        rw [reverse_nil, nil_append] at none
        rw [ReadOnce.fill, none]
      · rfl
    have attached : m.chain.isNone = true := Option.isNone_iff_eq_none.mpr plain
    rw [ReadOnce.fillAll]
    dsimp only
    rw [if_pos attached, here, ih]
    · simp
    · intro earlier reader later split isReader
      have none := heldUp (id :: earlier) reader later (by rw [split]; rfl) isReader
      simpa using none

end ReadOnce

/-! ## Counts after the pass -/

namespace Method.Folded

theorem count_uses (folded : m.Folded n) (proper : m.Proper) (single : m.SingleAssignment)
    {x : LocalId} (defined : n.Defines x) :
    (n.actions.flatMap Action.uses).count x = (m.actions.flatMap Action.uses).count x := by
  induction folded with
  | refl => rfl
  | @tail k n folded step ih =>
    obtain ⟨properHere, singleHere, -, -⟩ := Method.Folded.keeps folded proper single
    obtain ⟨f, folds⟩ := step
    obtain ⟨before, other⟩ := folds.defines_of_target singleHere defined
    rw [folds.count_target properHere other, ih before]

theorem joined_eq (folded : m.Folded n) : n.actions.flatMap joined = m.actions.flatMap joined := by
  induction folded with
  | refl => rfl
  | tail _ step ih =>
    obtain ⟨f, folds⟩ := step
    have reader : joined (f.reader.replaceLocal f.l f.value) = joined f.reader := by
      cases f.reader <;> rfl
    have definition : joined (.assign f.l f.value) = [] := rfl
    rw [← ih, folds.target_eq, folds.source_eq]
    simp only [flatMap_append, flatMap_cons, reader, definition, nil_append]

end Method.Folded

/-! ## The second run -/

theorem not_sublist_swapped {a b : StmtId} {ids : List StmtId} (nodup : ids.Nodup)
    (first : [a, b].Sublist ids) : ¬ [b, a].Sublist ids := by
  intro second
  induction ids with
  | nil => cases first
  | cons id ids ih =>
    obtain ⟨absent, distinct⟩ := nodup_cons.mp nodup
    cases first with
    | cons _ first =>
      cases second with
      | cons _ second => exact ih distinct first second
      | cons_cons _ second => exact absent (first.subset (by simp))
    | cons_cons _ first =>
      cases second with
      | cons _ second => exact absent (second.subset (by simp))
      | cons_cons _ second => exact absent (first.subset (by simp))

namespace Method

/-- Between a definition and its reader stood an assignment whose value has moved over the reader.
Neither value is pure, while the reader is; so the value of the definition, which is read once, was
held up by the assignment, and is free to move now that the assignment has gone. -/
structure Overtaken (m : Method) (definition moved reader : StmtId) : Prop where
  order : [definition, moved, reader].Sublist m.order.toList
  stays : definition ∈ m.inlineValues.order.toList
  staysReader : reader ∈ m.inlineValues.order.toList
  gone : moved ∉ m.inlineValues.order.toList
  reads : ∃ l value, m.inlineValues.action definition = .assign l value ∧ value.isPure = false ∧
    (m.actions.flatMap Action.uses).count l = 1 ∧ l ∈ (m.inlineValues.action reader).uses
  movedValue : ∃ l value, m.inlineValues.action moved = .assign l value ∧ value.isPure = false
  pureReader : ∃ l value, m.inlineValues.action reader = .assign l value ∧ value.isPure = true

section

variable (tidy : m.Tidy) (proper : m.Proper) (single : m.SingleAssignment)

include tidy proper single

theorem Tidy.inlineValues_with :
    ∃ kept, m.inlineValues.order.toList = kept.reverse ∧ m.SameLocals m.inlineValues ∧
      m.readOnce.Behind m.inlineValues m.order.toList.reverse kept ∧ m.inlineValues.Tidy := by
  have made := tidy.made
  have plain := tidy.plain
  have behind : m.readOnce.Behind m [] [] := by
    refine ⟨plain, Sublist.refl _, fun later reader front split => ?_⟩
    simp at split
  have distinct : (m.order.toList.reverse ++ []).Nodup := by simpa using tidy.nodup
  have all := behind.fillAll distinct made
  have same := ReadOnce.sameLocals_fillAll m.readOnce [] plain made
  have ready := ((tidy.ready proper single).fillAll).2
  rw [append_nil] at all
  have unfolded : m.inlineValues = (m.readOnce.fillAll m.order.toList m []).1.halfway
      (m.readOnce.fillAll m.order.toList m []).2 [] := by
    rw [inlineValues_eq, if_pos (Option.isNone_iff_eq_none.mpr (same.chain.trans plain)), halfway,
      append_nil]
  refine ⟨_, by rw [unfolded, halfway_order, append_nil], ?_, ?_, ?_⟩
  · rw [unfolded]
    exact ⟨same.chain, same.locals, same.size, same.defines⟩
  · rw [unfolded]
    exact all.of_same all.plain fun _ => rfl
  · rw [unfolded]
    exact ready.tidy

theorem Tidy.definition?_of_twice {l : LocalId} {value : Expr}
    (found : m.inlineValues.readOnce.definition? m.inlineValues l = some (stmt, value)) :
    m.readOnce.definition? m.inlineValues l = some (stmt, value) ∧
      (m.actions.flatMap Action.uses).count l = 1 := by
  obtain ⟨kept, order, same, behind, -⟩ := tidy.inlineValues_with proper single
  have folded := tidy.inlineValues_folded proper single
  have plain := behind.plain
  rw [ReadOnce.definition?_eq_some plain] at found ⊢
  obtain ⟨uses, phiUses, noted, action, notNew⟩ := found
  obtain ⟨linked, defines⟩ := m.inlineValues.mem_of_getD_defs noted
  have defined : m.inlineValues.Defines l := ⟨_, mem_map_of_mem linked, defines⟩
  have inside : l < m.locals.size := by
    by_contra outside
    rw [getD_useCounts, if_neg (same.locals ▸ outside)] at uses
    cases uses
  rw [getD_useCounts, if_pos (same.locals ▸ inside), folded.count_uses proper single defined] at uses
  rw [getD_useCounts_joined, if_pos (same.locals ▸ inside), folded.joined_eq] at phiUses
  -- The definition is the one that was noted at first, since a local has one.
  have before : stmt ∈ m.order.toList := by
    rw [order, mem_reverse] at linked
    exact mem_reverse.mp (behind.fewer.subset linked)
  have definesBefore := (same.defines stmt).symm.trans defines
  obtain ⟨other, notedBefore⟩ := m.exists_getD_defs inside before definesBefore
  obtain ⟨linkedOther, definesOther⟩ := m.mem_of_getD_defs notedBefore
  obtain ⟨position, here⟩ := mem_iff_getElem?.mp before
  obtain ⟨place, there⟩ := mem_iff_getElem?.mp linkedOther
  obtain rfl := single.once position place _ _ l (getElem?_actions here) (getElem?_actions there)
    definesBefore definesOther
  obtain rfl := Option.some.inj (here.symm.trans there)
  refine ⟨⟨?_, ?_, notedBefore, action, notNew⟩, uses⟩
  · rw [getD_useCounts, if_pos inside, uses]
  · rw [getD_useCounts_joined, if_pos inside, phiUses]

/-- A value that could move to a reader after the first run was held up by an assignment that has
gone since. -/
theorem Tidy.overtaken_of_candidate {front later : List StmtId} {reader : StmtId}
    (split : m.inlineValues.order.toList = front.reverse ++ reader :: later)
    (isReader : (m.inlineValues.action reader).isReader = true) {found : LocalId × StmtId × Expr}
    (free : m.inlineValues.readOnce.candidate? m.inlineValues front
      (m.inlineValues.action reader).evalOrder.reverse = some found) :
    ∃ definition moved, m.Overtaken definition moved reader := by
  obtain ⟨kept, order, same, behind, tidy'⟩ := tidy.inlineValues_with proper single
  have properTarget := ((tidy.inlineValues_folded proper single).keeps proper single).1
  obtain ⟨l, definition, value⟩ := found
  obtain ⟨after, node, earlier, between, nodes, reads, interesting, passed, moves⟩ :=
    ReadOnce.candidate?_spec free
  obtain ⟨interestingBefore, readOnce⟩ := tidy.definition?_of_twice proper single interesting
  have keptSplit : kept = later.reverse ++ reader :: front := by
    rw [← reverse_reverse kept, ← order, split]
    simp
  obtain ⟨old, left, sub⟩ := behind.left _ _ _ keptSplit isReader
  have nodup : m.order.toList.reverse.Nodup := nodup_reverse.mpr tidy.nodup
  have distinct := sub.nodup nodup
  obtain ⟨more, passedOld, apart⟩ := passedOver_of_sublist left.fewer
    (nodup_cons.mp distinct).2 (fun x listed outside => by
      obtain ⟨target, e, action, -⟩ := left.gone x listed outside
      rw [action]
      exact ⟨rfl, rfl, rfl⟩) passed
  have heldUp := ReadOnce.candidate?_eq_none.mp left.heldUp after node earlier l definition value more
    nodes reads interestingBefore passedOld
  rw [not_or] at heldUp
  obtain ⟨impure, heldUp⟩ := heldUp
  obtain ⟨pureBetween, pureEarlier⟩ := moves.resolve_left impure
  have obstacle : ∃ x ∈ more, ¬ (m.inlineValues.action x).isPure = true := by grind
  obtain ⟨x, listed, impureX⟩ := obstacle
  have outside : x ∉ front := (apart x listed).resolve_left fun inside => impureX (pureBetween x inside)
  obtain ⟨rest, oldSplit, -⟩ := passedOver_spec passedOld
  have inOld : x ∈ old := by
    rw [oldSplit]
    exact mem_append_left _ listed
  obtain ⟨target, e, actionX, either⟩ := left.gone x inOld outside
  rw [actionX] at impureX
  have pureReader := either.resolve_left impureX
  obtain ⟨front', rest', rfl⟩ := append_of_mem listed
  have three : [reader, x, definition].Sublist m.order.toList.reverse := by
    refine Sublist.trans ?_ sub
    rw [oldSplit]
    refine Sublist.cons_cons _ ?_
    have behindX : [definition].Sublist (rest' ++ definition :: rest) :=
      singleton_sublist.mpr (by simp)
    rw [append_assoc]
    exact ((Sublist.cons_cons x behindX)).trans (sublist_append_right _ _)
  have two : [reader, x].Sublist m.order.toList.reverse :=
    (Sublist.cons_cons _ (Sublist.cons_cons _ (nil_sublist _))).trans three
  obtain ⟨-, -, noted, ⟨_, actionDefinition⟩, -⟩ :=
    (ReadOnce.definition?_eq_some behind.plain).mp interesting
  obtain ⟨linked, definesDefinition⟩ := m.inlineValues.mem_of_getD_defs noted
  obtain ⟨z, pureValue, actionReader⟩ : ∃ z e, m.inlineValues.action reader = .assign z e := by
    cases action : m.inlineValues.action reader with
    | assign z e => exact ⟨z, e, rfl⟩
    | nop =>
      rw [action] at isReader
      cases isReader
    | _ =>
      rw [action] at pureReader
      cases pureReader
  refine ⟨definition, x, ?_, linked, by rw [split]; simp, ?_, ⟨l, value, ?_, ?_, readOnce, ?_⟩,
    ⟨target, e, actionX, by simpa [Action.isPure] using impureX⟩, ⟨z, pureValue, actionReader, ?_⟩⟩
  · simpa using three.reverse
  · rw [order, mem_reverse, keptSplit]
    intro inside
    rcases mem_append.mp inside with behindReader | inFront
    · refine not_sublist_swapped nodup two (Sublist.trans ?_ behind.fewer)
      rw [keptSplit]
      exact (singleton_sublist.mpr behindReader).append (singleton_sublist.mpr mem_cons_self)
    · rcases mem_cons.mp inFront with rfl | inFront
      · exact (nodup_cons.mp distinct).1 inOld
      · exact outside inFront
  · rw [actionDefinition] at definesDefinition ⊢
    rw [Option.some.inj definesDefinition]
  · simpa using impure
  · have properReader : (m.inlineValues.action reader).Proper :=
      properTarget.operands _ (mem_map_of_mem (by rw [split]; simp))
    have listedNode : node ∈ (m.inlineValues.action reader).evalOrder := by
      rw [← mem_reverse, nodes]
      simp
    have evaluated := properReader.mem_inputs listedNode reads
    rw [actionReader] at evaluated ⊢
    rwa [Action.uses_eq]
  · rwa [actionReader] at pureReader

end

/-- Moving values a second time, right after the first, changes nothing, unless a value has moved over
a reader and so set another one free that was in front of it. -/
theorem inlineValues_twice (tidy : m.Tidy) (proper : m.Proper) (single : m.SingleAssignment) :
    m.inlineValues.inlineValues = m.inlineValues ∨
      ∃ definition moved reader, m.Overtaken definition moved reader := by
  by_cases overtaken : ∃ definition moved reader, m.Overtaken definition moved reader
  · exact .inr overtaken
  left
  have plain : m.inlineValues.chain = none := by
    obtain ⟨kept, order, same, behind, tidy'⟩ := tidy.inlineValues_with proper single
    exact behind.plain
  have still : m.inlineValues.readOnce.fillAll m.inlineValues.order.toList m.inlineValues [] =
      (m.inlineValues, m.inlineValues.order.toList.reverse ++ []) := by
    refine ReadOnce.fillAll_self plain ?_
    intro earlier reader later split isReader
    by_contra free
    obtain ⟨found, free⟩ := Option.ne_none_iff_exists'.mp free
    rw [append_nil] at free
    obtain ⟨definition, moved, swapped⟩ :=
      tidy.overtaken_of_candidate proper single (by simpa using split) isReader free
    exact overtaken ⟨definition, moved, reader, swapped⟩
  generalize m.inlineValues = n at plain still ⊢
  simp only [inlineValues_eq, still, plain, Option.isNone_none, if_true, append_nil, reverse_reverse,
    Array.toArray_toList]
  cases n
  cases plain
  rfl

/-- Calls three methods in turn, and adds one to what the first gave before the third is called. -/
def pending : Method :=
  { owner := ∅, name := ∅, desc := ∅, access := default, params := [], result := ∅
    locals := Array.replicate 3 { type := .int }
    stmts := #[
      ⟨.assign 0 (.node (.invoke .static ⟨∅, ⟨[0]⟩, [], ∅⟩) []), none⟩,
      ⟨.assign 1 (.node (.invoke .static ⟨∅, ⟨[1]⟩, [], ∅⟩) []), none⟩,
      ⟨.assign 2 (.binary .add .int (.read 0) (.number .int 1)), none⟩,
      ⟨.void (.node (.invoke .static ⟨∅, ⟨[2]⟩, [∅], ∅⟩) [.read 1]), none⟩,
      ⟨.return (some (.binary .add .int (.read 2) (.read 2))), none⟩]
    order := #[0, 1, 2, 3, 4]
    placed := #[] }

/-- The first run moves the second call over the sum, and the second run moves the first call into it.
-/
theorem inlineValues_twice_pending :
    pending.inlineValues.order = #[0, 2, 3, 4] ∧
      pending.inlineValues.inlineValues.order = #[2, 3, 4] ∧
        pending.inlineValues.inlineValues ≠ pending.inlineValues := by
  refine ⟨by decide, by decide, fun same => ?_⟩
  have orders : pending.inlineValues.inlineValues.order ≠ pending.inlineValues.order := by
    decide
  exact orders (congrArg Method.order same)

def pendingNotes (position : Nat) : Note :=
  { known := range (min 3 position), ways := Note.entry.ways }

/-- The call that is held up until the next one has moved. -/
theorem inlineValues_twice_pending_overtaken :
    (pending.Tidy ∧ pending.Proper ∧ pending.SingleAssignment) ∧
      ∃ definition moved reader, pending.Overtaken definition moved reader := by
  have noted : pending.Noted pendingNotes := by decide
  have tidy : pending.Tidy := by decide
  have proper : pending.Proper := by decide
  refine ⟨⟨tidy, proper, noted.singleAssignment⟩, ?_⟩
  refine (inlineValues_twice tidy proper noted.singleAssignment).resolve_left fun same => ?_
  have orders : pending.inlineValues.inlineValues.order ≠ pending.inlineValues.order := by
    decide
  exact orders (congrArg Method.order same)

end Method

end DexLift.Ir
