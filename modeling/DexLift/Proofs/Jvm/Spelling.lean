import DexLift.Proofs.Jvm.Agreement

/-!
# Where the items of finished code stand

A call that appends leaves one item behind those that are there, whatever its arguments
are, and the others leave the items alone. Finished code is the bytes of the items one
behind the other, each encoded for the address where it stands. A label stands where
the item begins that it was marked before.
-/

namespace DexLift.Jvm

open List
open Call (MarkedBefore appended)

def Item.IsPaired : Item → Prop
  | .switch _ keys targets _ => keys.length = targets.length
  | _ => True

namespace Asm

variable {α β : Type}

/-! ## Steps that append one item -/

def Rests (step : Asm α) : Prop :=
  ∀ a b value, step.run.run a = (.ok value, b) → b.items = a.items ∧ b.labels = a.labels

def Pushes (step : Asm Unit) : Prop :=
  ∀ a b, step.run.run a = (.ok (), b) →
    ∃ item, item.IsPaired ∧ b.items = a.items.push item ∧ b.labels = a.labels

theorem rests_pure (value : α) : Rests (pure value : Asm α) := by
  intro a b value ran
  cases ran
  exact ⟨rfl, rfl⟩

theorem rests_update {change : Assembler → Assembler}
    (same : ∀ a, (change a).items = a.items ∧ (change a).labels = a.labels) :
    Rests (update change) := by
  intro a b value ran
  cases ran
  exact same a

theorem rests_intern (step : Intern α) : Rests (intern step) := by
  intro a b value ran
  cases ran
  exact ⟨rfl, rfl⟩

theorem rests_lift (outcome : Outcome α) : Rests (lift outcome) := by
  intro a b value ran
  cases ran
  exact ⟨rfl, rfl⟩

theorem Rests.bind {step : Asm α} {next : α → Asm β} (first : Rests step)
    (second : ∀ value, Rests (next value)) : Rests (step >>= next) := by
  intro a c result ran
  obtain ⟨value, b, ended, ran⟩ := bind_ok ran
  obtain ⟨items, labels⟩ := first a b value ended
  obtain ⟨itemsToo, labelsToo⟩ := second value b c result ran
  exact ⟨itemsToo.trans items, labelsToo.trans labels⟩

theorem Rests.ite {p : Prop} [Decidable p] {step other : Asm α} (first : Rests step)
    (second : Rests other) : Rests (if p then step else other) := by
  split
  · exact first
  · exact second

theorem Rests.pushes {step : Asm α} {next : α → Asm Unit} (rests : Rests step)
    (pushes : ∀ value, Pushes (next value)) : Pushes (step >>= next) := by
  intro a c ran
  obtain ⟨value, b, ended, ran⟩ := bind_ok ran
  obtain ⟨items, labels⟩ := rests a b value ended
  obtain ⟨item, paired, grown, same⟩ := pushes value b c ran
  exact ⟨item, paired, items ▸ grown, same.trans labels⟩

theorem Pushes.rests {step : Asm Unit} {next : Unit → Asm Unit} (pushes : Pushes step)
    (rests : ∀ value, Rests (next value)) : Pushes (step >>= next) := by
  intro a c ran
  obtain ⟨⟨⟩, b, ended, ran⟩ := bind_ok ran
  obtain ⟨item, paired, grown, same⟩ := pushes a b ended
  obtain ⟨items, labels⟩ := rests () b c () ran
  exact ⟨item, paired, items.trans grown, labels.trans same⟩

theorem Pushes.ite {p : Prop} [Decidable p] {step other : Asm Unit} (first : Pushes step)
    (second : Pushes other) : Pushes (if p then step else other) := by
  split
  · exact first
  · exact second

/-! ## Instructions -/

theorem rests_emptyStack : Rests emptyStack := rests_update fun _ => ⟨rfl, rfl⟩

theorem rests_typeIndex (desc : Text) : Rests (typeIndex desc) :=
  (rests_lift _).bind fun _ => rests_pure _

theorem pushes_append (item : Item) (paired : item.IsPaired) (delta : Int) :
    Pushes (append item delta) := by
  intro a b ran
  cases ran
  exact ⟨item, paired, rfl, rfl⟩

theorem pushes_emit (delta : Int) (o : Opcode) (operands : List UInt8) :
    Pushes (emit delta o operands) :=
  pushes_append (.bytes (o.code :: operands)) trivial delta

theorem pushes_op (o : Opcode) : Pushes (op o) :=
  (pushes_emit _ _ _).rests fun _ => rests_emptyStack.ite (rests_pure ())

theorem pushes_loadConstant (index : UInt16) : Pushes (loadConstant index) :=
  (pushes_emit _ _ _).ite (pushes_emit _ _ _)

theorem pushes_access (base short : Opcode) (desc : Text) (slot delta : Int) :
    Pushes (access base short desc slot delta) :=
  (rests_typeIndex desc).pushes fun _ =>
    (rests_update (by exact fun _ => ⟨rfl, rfl⟩)).pushes fun _ =>
      (pushes_emit _ _ _).ite <| (pushes_emit _ _ _).ite (pushes_emit _ _ _)

theorem pushes_elementOp (base : Opcode) (element : Text) : Pushes (elementOp base element) :=
  ((rests_lift _).bind fun _ => rests_pure _).pushes fun _ => pushes_op _

theorem pushes_typeOp (o : Opcode) (name : Text) : Pushes (typeOp o name) :=
  (rests_intern _).pushes fun _ => pushes_emit _ _ _

theorem pushes_tableSwitch (low : Int32) (targets : List CodeLabel) (default : CodeLabel) :
    Pushes (tableSwitch low targets default) := by
  refine (pushes_append _ ?_ _).rests fun _ => rests_emptyStack
  simp [Item.IsPaired]

section

variable (keys : List Int32) (targets : List CodeLabel) (default : CodeLabel)

theorem pushes_lookupSwitch : Pushes (lookupSwitch keys targets default) := by
  have last : ∀ branches : List (Int32 × CodeLabel), Pushes (append (.switch false
      (branches.map fun p => p.1.toInt) (branches.map Prod.snd) default) (-1) >>=
        fun _ => emptyStack) :=
    fun branches => (pushes_append _ (by simp [Item.IsPaired]) _).rests fun _ => rests_emptyStack
  unfold lookupSwitch
  split
  · exact (rests_lift _).pushes fun _ => last _
  · exact (rests_pure ()).pushes fun _ => last _

theorem pushes_switch : Pushes (switch keys targets default) := by
  cases keys with
  | nil => exact pushes_lookupSwitch [] [] default
  | cons first rest =>
    simp only [switch]
    split
    · exact pushes_lookupSwitch _ _ _
    · split
      · exact (rests_lift _).pushes fun _ => pushes_tableSwitch _ _ _
      · exact (rests_pure ()).pushes fun _ => pushes_tableSwitch _ _ _

end

end Asm

open Asm in
theorem Call.pushes_run {call : Call} (adding : call.appends = true) : Asm.Pushes call.run := by
  cases call with
  | newLabel | mark | setInitialFrame | frame | line | catch_ => cases adding
  | op o => exact pushes_op o
  | int n | float bits =>
    exact (pushes_emit _ _ _).ite <| (pushes_emit _ _ _).ite <| (pushes_emit _ _ _).ite <|
      (rests_intern _).pushes fun _ => pushes_loadConstant _
  | long bits =>
    exact (pushes_emit _ _ _).ite <| (rests_intern _).pushes fun _ => pushes_emit _ _ _
  | double bits =>
    exact (pushes_emit _ _ _).ite <| (pushes_emit _ _ _).ite <|
      (rests_intern _).pushes fun _ => pushes_emit _ _ _
  | string text | classConst name => exact (rests_intern _).pushes fun _ => pushes_loadConstant _
  | null => exact pushes_emit _ _ _
  | load desc slot | store desc slot => exact pushes_access _ _ _ _ _
  | increment slot n =>
    exact (rests_update (by exact fun _ => ⟨rfl, rfl⟩)).pushes fun _ =>
      (pushes_emit _ _ _).ite (pushes_emit _ _ _)
  | return_ desc =>
    exact (pushes_op _).ite ((rests_typeIndex desc).pushes fun _ => pushes_op _)
  | arrayLoad element | arrayStore element => exact pushes_elementOp _ _
  | field o owner name desc | multiArray desc dims =>
    exact (rests_intern _).pushes fun _ => pushes_emit _ _ _
  | invoke o owner name desc ofInterface =>
    exact (rests_lift _).pushes fun _ => (rests_intern _).pushes fun _ => pushes_emit _ _ _
  | typeOp o name => exact pushes_typeOp o name
  | newArray element =>
    refine (rests_lift _).pushes fun _ => ?_
    split
    · exact pushes_emit _ _ _
    · exact pushes_typeOp _ _
  | jump o target =>
    exact (pushes_append (.jump o target false) trivial _).rests fun _ =>
      rests_emptyStack.ite (rests_pure ())
  | tableSwitch low targets default => exact pushes_tableSwitch low targets default
  | lookupSwitch keys targets default => exact pushes_lookupSwitch keys targets default
  | switch keys targets default => exact pushes_switch keys targets default

/-! ## Lists of calls -/

/-- What any calls leave: one item for each that appends, and labels that stand where they were
marked. -/
structure Numbered (calls : List Call) (a : Assembler) : Prop where
  size : a.items.size = appended calls
  paired : ∀ item ∈ a.items.toList, item.IsPaired
  labels : ∀ l place, a.labels[l]? = some (some place) → MarkedBefore calls l place

theorem numbered_nil (pool : Pool) : Numbered [] { pool } := by
  refine ⟨rfl, nofun, fun l place found => ?_⟩
  simp at found

section Step

variable {calls : List Call} {call : Call} {a b : Assembler}

section

variable (numbered : Numbered calls a)

include numbered

theorem Numbered.rest (silent : call.appends = false)
    (other : ∀ l, call ≠ .mark l) (items : b.items = a.items) (labels : b.labels = a.labels) :
    Numbered (calls ++ [call]) b ∧ a.items.toList <+: b.items.toList := by
  have same := Call.appended_snoc calls call
  rw [silent, if_neg nofun, Nat.add_zero] at same
  refine ⟨⟨?_, items ▸ numbered.paired, fun l place found => ?_⟩, items ▸ prefix_rfl⟩
  · rw [items, numbered.size, same]
  · rw [labels] at found
    exact (numbered.labels l place found).snoc (other l)

theorem Numbered.step (ran : call.run.run.run a = (.ok (), b)) :
    Numbered (calls ++ [call]) b ∧ a.items.toList <+: b.items.toList := by
  have more := Call.appended_snoc calls call
  cases adding : call.appends with
  | true =>
    obtain ⟨item, paired, items, labels⟩ := Call.pushes_run adding a b ran
    rw [adding, if_pos rfl] at more
    refine ⟨⟨by rw [items, Array.size_push, numbered.size, more], ?_, fun l place found => ?_⟩, ?_⟩
    · rw [items, Array.toList_push, forall_mem_append, forall_mem_singleton]
      exact ⟨numbered.paired, paired⟩
    · rw [labels] at found
      refine (numbered.labels l place found).snoc ?_
      rintro rfl
      cases adding
    · rw [items, Array.toList_push]
      exact prefix_append _ _
  | false =>
    rw [adding, if_neg nofun, Nat.add_zero] at more
    cases call with
    | newLabel =>
      cases ran
      refine ⟨⟨numbered.size.trans more.symm, numbered.paired, fun l place found => ?_⟩, prefix_rfl⟩
      rw [Array.getElem?_push] at found
      split at found
      · cases found
      · exact (numbered.labels l place found).snoc nofun
    | mark l =>
      cases ran
      refine ⟨⟨numbered.size.trans more.symm, numbered.paired, fun other place found => ?_⟩,
        prefix_rfl⟩
      rw [Array.getElem?_setIfInBounds] at found
      split at found
      next here =>
        split at found
        · cases found
          rw [← here, numbered.size]
          exact Call.markedBefore_mark calls l
        · cases found
      next elsewhere =>
        refine (numbered.labels other place found).snoc ?_
        rintro ⟨⟩
        exact elsewhere rfl
    | line n =>
      cases ran
      exact numbered.rest rfl nofun (by dsimp only; split <;> rfl) (by dsimp only; split <;> rfl)
    | setInitialFrame | frame | catch_ =>
      cases ran
      exact numbered.rest rfl nofun rfl rfl
    | _ => cases adding

theorem Numbered.runAll {more : List Call} (ran : (Call.runAll more).run.run a = (.ok (), b)) :
    Numbered (calls ++ more) b ∧ a.items.toList <+: b.items.toList := by
  induction more generalizing calls a with
  | nil =>
    cases ran
    rw [append_nil]
    exact ⟨numbered, prefix_rfl⟩
  | cons call more ih =>
    obtain ⟨⟨⟩, c, ended, ran⟩ := Asm.bind_ok ran
    obtain ⟨next, first⟩ := numbered.step ended
    obtain ⟨all, later⟩ := ih next ran
    rw [append_assoc] at all
    exact ⟨all, first.trans later⟩

end

end Step

/-! ## Finished code -/

/-- Where the items of an assembler stand in code: each is encoded for its address, and the next one
stands behind its bytes. The last address is that behind the code. Addresses have 16 bits. -/
structure Assembler.Spells (a : Assembler) (code : List UInt8) (address : Nat → Nat) : Prop where
  low : ∀ i, address i ≤ 65535
  start : address 0 = 0
  item : ∀ (i : Nat) (item : Item), a.items[i]? = some item → ∃ laid piece,
    item.Lengthens laid ∧
    laid.encode (address i) (fun l => address ((a.labels.getD l none).getD 0)) = .ok piece ∧
    piece <+: code.drop (address i) ∧ address (i + 1) = address i + piece.length
  stop : address a.items.size = code.length

theorem length_flatMap_of_each {α : Type} {piece : α → List UInt8} {n : Nat}
    (each : ∀ a, (piece a).length = n) (list : List α) :
    (list.flatMap piece).length = n * list.length := by
  induction list with
  | nil => rfl
  | cons a list ih =>
    rw [flatMap_cons, length_append, each, ih, length_cons, Nat.mul_succ, Nat.add_comm]

theorem Item.length_encode {item : Item} (paired : item.IsPaired) {pc : Nat}
    {at_ : CodeLabel → Nat} {piece : List UInt8} (encoded : item.encode pc at_ = .ok piece) :
    piece.length = item.size pc := by
  cases item with
  | bytes data =>
    cases encoded
    rfl
  | jump o target isLong =>
    rw [encode] at encoded
    rw [size]
    split at encoded
    next short =>
      cases encoded
      rw [if_pos short]
      rfl
    next long =>
      rw [if_neg long]
      split at encoded
      next always =>
        cases encoded
        rw [if_pos always]
        rfl
      next conditional =>
        cases encoded
        rw [if_neg conditional]
        rfl
  | «switch» isTable keys targets default =>
    have offset : ∀ n : Int, (u4OfInt n).length = 4 := fun _ => rfl
    have padded : (replicate (switchPadding pc) (0 : UInt8)).length = switchPadding pc :=
      length_replicate
    rw [size]
    cases isTable with
    | true =>
      simp only [encode, if_true] at encoded
      split at encoded
      · cases encoded
        rw [length_append, length_flatMap_of_each fun _ => offset _]
        simp only [length_append, length_cons, padded, offset, if_true]
        omega
      · cases encoded
    | false =>
      cases encoded
      have count : (u4OfNat keys.length).length = 4 := rfl
      have all : (keys.zip targets).length = keys.length := by
        rw [length_zip, ← (paired : keys.length = targets.length), Nat.min_self]
      rw [length_append, @length_flatMap_of_each _ _ 8 fun _ => rfl, all]
      simp only [length_append, length_cons, padded, offset, count, Bool.false_eq_true, if_false]
      omega

theorem Item.IsPaired.lengthens {item laid : Item} (paired : item.IsPaired)
    (lengthens : item.Lengthens laid) : laid.IsPaired := by
  cases lengthens with
  | same => exact paired
  | jump => trivial

theorem spelled {at_ : CodeLabel → Nat} {items : List Item} (paired : ∀ item ∈ items, item.IsPaired)
    {pc : Nat} {pieces : List (List UInt8)}
    (encoded : (items.zip (addressesFrom pc items)).mapM
      (fun pair => pair.1.encode pair.2 at_) = .ok pieces) :
    (∀ (i : Nat) (item : Item), items[i]? = some item → ∃ before piece,
      (addressesFrom pc items)[i]? = some (pc + before) ∧
      item.encode (pc + before) at_ = .ok piece ∧ piece <+: pieces.flatten.drop before ∧
      (addressesFrom pc items)[i + 1]? = some (pc + before + piece.length)) ∧
    (addressesFrom pc items)[items.length]? = some (pc + pieces.flatten.length) := by
  induction items generalizing pc pieces with
  | nil =>
    cases encoded
    exact ⟨nofun, rfl⟩
  | cons first items ih =>
    obtain ⟨pairedFirst, paired⟩ := forall_mem_cons.mp paired
    rw [addressesFrom, zip_cons_cons, mapM_cons] at encoded
    obtain ⟨piece, here, encoded⟩ := Outcome.bind_ok.mp encoded
    obtain ⟨more, later, encoded⟩ := Outcome.bind_ok.mp encoded
    cases encoded
    have length := first.length_encode pairedFirst here
    obtain ⟨each, stop⟩ := ih paired later
    rw [addressesFrom, flatten_cons, length_append, length_cons, ← length]
    rw [← length] at each stop
    refine ⟨fun i item found => ?_, ?_⟩
    · cases i with
      | zero =>
        cases found
        refine ⟨0, piece, rfl, here, prefix_append _ _, ?_⟩
        rw [getElem?_cons_succ]
        cases items <;> rfl
      | succ i =>
        obtain ⟨before, bytes, there, spelled, ahead, next⟩ := each i item found
        refine ⟨piece.length + before, bytes, ?_, ?_, ?_, ?_⟩
        · rw [getElem?_cons_succ, there, Nat.add_assoc]
        · rwa [← Nat.add_assoc]
        · rwa [← drop_drop, drop_left]
        · rw [getElem?_cons_succ, next]
          simp only [Nat.add_assoc]
    · rw [getElem?_cons_succ, stop, Nat.add_assoc]

theorem exists_spells {a b : Assembler} {code : Code}
    (paired : ∀ item ∈ a.items.toList, item.IsPaired) (ended : Asm.finish.run.run a = (.ok code, b)) :
    ∃ address, a.Spells code.bytecode address ∧
      ∀ l ∈ a.referenced, ∃ place, a.labels[l]? = some (some place) := by
  obtain ⟨laid, addresses, at_, stop, finished⟩ := finish_spec ended
  obtain ⟨pieces, encoded, bytecode⟩ := finished.encoded
  have lengthens := finished.laidOut.lengthens
  have laidPaired : ∀ item ∈ laid, item.IsPaired := by
    intro item member
    obtain ⟨i, inside, rfl⟩ := mem_iff_getElem.mp member
    have here := (forall₂_iff_get.mp lengthens).2 i (by rwa [lengthens.length_eq]) inside
    exact (paired _ (getElem_mem _)).lengthens here
  have start := finished.addresses_eq
  rw [start] at encoded
  obtain ⟨each, last⟩ := spelled laidPaired encoded
  rw [← start] at each last
  have known : ∀ {i n : Nat}, addresses[i]? = some n → addresses.toArray.getD i 0 = n := by
    intro i n found
    rw [Array.getD_eq_getD_getElem?, getElem?_toArray, found, Option.getD_some]
  refine ⟨fun i => addresses.toArray.getD i 0, ⟨fun i => ?_, ?_, fun i item found => ?_, ?_⟩,
    finished.placed⟩
  · rw [Array.getD_eq_getD_getElem?, getElem?_toArray]
    cases found : addresses[i]? with
    | none => exact Nat.zero_le _
    | some n => exact finished.low_addresses n (mem_of_getElem? found)
  · refine known ?_
    rw [start]
    cases laid <;> rfl
  · obtain ⟨inside, rfl⟩ := Array.getElem?_eq_some_iff.mp found
    have insideToo : i < laid.length := by rwa [← lengthens.length_eq, Array.length_toList]
    have here := (forall₂_iff_get.mp lengthens).2 i inside insideToo
    obtain ⟨before, piece, there, coded, ahead, next⟩ :=
      each i laid[i] (getElem?_eq_getElem insideToo)
    rw [Nat.zero_add] at there coded next
    refine ⟨laid[i], piece, here, ?_, ?_, ?_⟩
    · rw [known there]
      rwa [finished.labelled] at coded
    · rwa [known there, bytecode]
    · rw [known there, known next]
  · have count : a.items.size = laid.length := by rw [← lengthens.length_eq, Array.length_toList]
    rw [count, known last, Nat.zero_add, bytecode]

end DexLift.Jvm
