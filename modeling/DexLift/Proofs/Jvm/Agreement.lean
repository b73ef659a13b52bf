import DexLift.Proofs.Jvm.Assembly

/-!
# Assembled code and its listing agree

Whatever was asked for is what the disassembler shows: finished code is decoded, from
the first byte to the last, into the instructions of the calls in their order. Labels
stand where the instructions begin that they were marked before, for jumps and
switches as well as for the tables of exceptions and lines.
-/

namespace DexLift.Jvm

open List
open Call (MarkedBefore lineNotes)

variable {calls : List Call} {l : CodeLabel} {items laid : List Item} {code : Code}

theorem Call.MarkedBefore.le_appended {calls : List Call} {l : CodeLabel} {place : Nat}
    (marked : MarkedBefore calls l place) : place ≤ Call.appended calls := by
  obtain ⟨before, after, rfl, -, rfl⟩ := marked
  rw [Call.appended, Call.appended, countP_append]
  exact Nat.le_add_right _ _

/-- Labels stand where the instructions begin that they were marked before; the last of the
addresses is that behind the code. -/
def Marked (calls : List Call) (addresses : List Nat) : Standing := fun l address =>
  ∃ place, MarkedBefore calls l place ∧ addresses[place]? = some address

theorem le_getLast_addressesFrom {pc address stop : Nat} (member : address ∈ addressesFrom pc items)
    (last : (addressesFrom pc items).getLast? = some stop) : address ≤ stop := by
  induction items generalizing pc address with
  | nil =>
    cases last
    exact le_of_eq (mem_singleton.mp member)
  | cons item items ih =>
    rw [addressesFrom, getLast?_cons_of_ne_nil (ne_nil_of_mem (mem_addressesFrom _ items))] at last
    have behind : pc + item.size pc ≤ stop := ih (mem_addressesFrom _ items) last
    rcases mem_cons.mp member with rfl | later
    · exact le_trans (Nat.le_add_right _ _) behind
    · exact ih later last

theorem Item.targets_of_lengthens (lengthens : Forall₂ Item.Lengthens items laid) :
    laid.flatMap Item.targets = items.flatMap Item.targets := by
  induction lengthens with
  | nil => rfl
  | cons here _ ih =>
    rw [flatMap_cons, flatMap_cons, ih]
    cases here <;> rfl

theorem Item.isFor_of_lengthens {p : Pool} (isFor : Forall₂ (Item.IsFor p) calls items)
    (lengthens : Forall₂ Item.Lengthens items laid) : Forall₂ (Item.IsFor p) calls laid := by
  induction isFor generalizing laid with
  | nil =>
    cases lengthens
    exact .nil
  | cons here _ ih =>
    cases lengthens with
    | cons longer later => exact .cons (here.lengthens longer) (ih later)

section Finished

variable {calls : List Call} {a : Assembler} {code : Code} {q : Pool} {laid : List Item}
  {addresses : List Nat} {at_ : CodeLabel → Nat} {stop : Nat}

section

variable (finished : Finished a code q laid addresses at_ stop)

include finished

theorem Finished.low_addresses : ∀ address ∈ addresses, address ≤ 65535 := by
  intro address member
  refine le_trans ?_ finished.low
  have last := finished.stop_eq
  rw [finished.addresses_eq] at member last
  exact le_getLast_addressesFrom member last

theorem Finished.near (l : CodeLabel) : at_ l ≤ 65535 := by
  rw [finished.labelled, addressOf, Array.getD_eq_getD_getElem?, getElem?_toArray]
  cases found : addresses[(a.labels.getD l none).getD 0]? with
  | none => exact Nat.zero_le _
  | some address => exact finished.low_addresses address (mem_of_getElem? found)

section

variable (recorded : Recorded calls a)

include recorded

theorem Finished.stands (member : l ∈ a.referenced) : Marked calls addresses l (at_ l) := by
  obtain ⟨place, placed⟩ := finished.placed l member
  have marked := recorded.labels l place placed
  have inside : place < addresses.length := by
    have bound := marked.le_appended
    rw [finished.addresses_eq, Asm.length_addressesFrom, ← finished.laidOut.lengthens.length_eq,
      Array.length_toList, recorded.size]
    exact Nat.lt_succ_of_le bound
  refine ⟨place, marked, ?_⟩
  rw [finished.labelled, addressOf, Array.getD_eq_getD_getElem?, Array.getD_eq_getD_getElem?,
    placed, Option.getD_some, Option.getD_some, getElem?_toArray,
    getElem?_eq_getElem inside, Option.getD_some]

theorem Finished.itemsShow :
    ∃ groups, ItemsShow q (Marked calls addresses) (calls.filter Call.appends) 0 laid
      code.bytecode groups := by
  obtain ⟨pieces, encoded, bytecode⟩ := finished.encoded
  have grown : a.pool.Grows q := (Assembler.adds_exceptionTable _ _ _).trans finished.exceptionsGrow
  have isFor := Item.isFor_of_lengthens (recorded.items q grown finished.fine)
    finished.laidOut.lengthens
  have there : ∀ l ∈ laid.flatMap Item.targets, Marked calls addresses l (at_ l) := by
    intro l member
    rw [Item.targets_of_lengthens finished.laidOut.lengthens] at member
    exact finished.stands recorded (mem_append_left _ member)
  have low := finished.low_addresses
  have reaches := finished.laidOut.reaches
  have labelled := finished.labelled
  rw [finished.addresses_eq] at encoded low labelled
  rw [← labelled] at reaches
  rw [bytecode]
  exact Jvm.itemsShow finished.near isFor reaches there low encoded

theorem Finished.length_laid : laid.length = Call.appended calls := by
  rw [← finished.laidOut.lengthens.length_eq, Array.length_toList, recorded.size]

end

theorem Finished.mem_byAddress (apart : addresses.Pairwise (· < ·)) {α : Type}
    {entries : List (Nat × α)} (ascending : Ascending entries laid.length) :
    (∀ pc value, (pc, value) ∈ Assembler.byAddress addresses.toArray stop entries ↔
      ∃ place < laid.length, addresses[place]? = some pc ∧ lastAt entries place = some value) ∧
    (Assembler.byAddress addresses.toArray stop entries).Pairwise fun a b => a.1 < b.1 := by
  have length : addresses.length = laid.length + 1 := by
    rw [finished.addresses_eq, Asm.length_addressesFrom]
  have last : addresses[laid.length]? = some stop := by
    rw [← finished.stop_eq, getLast?_eq_getElem?, length, Nat.add_sub_cancel]
  have found : ∀ place ≤ laid.length, addresses[place]? = some (addresses.toArray.getD place 0) := by
    intro place inside
    have inside : place < addresses.length := by omega
    rw [Array.getD_eq_getD_getElem?, getElem?_toArray, getElem?_eq_getElem inside,
      Option.getD_some]
  have less : ∀ i j, i < j → j ≤ laid.length →
      addresses.toArray.getD i 0 < addresses.toArray.getD j 0 := by
    intro i j before inside
    obtain ⟨_, first⟩ := List.getElem?_eq_some_iff.mp (found i (by omega))
    obtain ⟨_, second⟩ := List.getElem?_eq_some_iff.mp (found j inside)
    rw [← first, ← second]
    exact pairwise_iff_getElem.mp apart i j _ _ before
  have ending : addresses.toArray.getD laid.length 0 = stop :=
    Option.some.inj ((found _ (Nat.le_refl _)).symm.trans last)
  obtain ⟨members, sorted⟩ := byAddress_spec ascending less stop
  refine ⟨fun pc value => ?_, sorted⟩
  rw [members]
  constructor
  · rintro ⟨inside, place, rfl, noted⟩
    have bound : place ≤ laid.length := ascending.bounded _ (exists_of_lastAt noted)
    refine ⟨place, Nat.lt_of_le_of_ne bound ?_, found place bound, noted⟩
    rintro rfl
    omega
  · rintro ⟨place, inside, here, noted⟩
    have same := Option.some.inj (here.symm.trans (found place (Nat.le_of_lt inside)))
    refine ⟨?_, place, same.symm, noted⟩
    rw [same, ← ending]
    exact less place laid.length inside (Nat.le_refl _)

end

theorem lineNotes_le (calls : List Call) : ∀ entry ∈ lineNotes calls, entry.2 ≤ 65535 := by
  induction calls using List.reverseRecOn with
  | nil => nofun
  | append_singleton calls call ih =>
    cases call with
    | line n =>
      rw [Call.lineNotes_line]
      split
      · exact ih
      next kept =>
        intro entry member
        rcases mem_append.mp member with earlier | now
        · exact ih entry earlier
        · rw [mem_singleton.mp now]
          omega
    | _ =>
      rwa [Call.lineNotes_other calls (by nofun)]

theorem Finished.lines_spec (finished : Finished a code q laid addresses at_ stop)
    (recorded : Recorded calls a) (apart : addresses.Pairwise (· < ·)) :
    (∀ entry, entry ∈ code.lines ↔ ∃ place < laid.length, addresses[place]? = some entry.pc.toNat ∧
        lastAt (lineNotes calls) place = some entry.line.toNat) ∧
      code.lines.Pairwise fun first second => first.pc < second.pc := by
  have ascending := recorded.linesAscend
  rw [recorded.lines, ← finished.length_laid recorded] at ascending
  obtain ⟨members, sorted⟩ := finished.mem_byAddress apart ascending
  have number : ∀ {pc value}, (pc, value) ∈ Assembler.byAddress addresses.toArray stop
      (lineNotes calls) → (UInt16.ofNat pc).toNat = pc ∧ (UInt16.ofNat value).toNat = value := by
    intro pc value member
    obtain ⟨place, -, here, noted⟩ := (members pc value).mp member
    have low := finished.low_addresses pc (mem_of_getElem? here)
    have short := lineNotes_le calls _ (exists_of_lastAt noted)
    exact ⟨UInt16.toNat_ofNat_of_lt' (Nat.lt_succ_of_le low),
      UInt16.toNat_ofNat_of_lt' (Nat.lt_succ_of_le short)⟩
  rw [finished.lines, recorded.lines]
  constructor
  · intro entry
    rw [mem_map]
    constructor
    · rintro ⟨⟨pc, value⟩, member, rfl⟩
      obtain ⟨pcSame, valueSame⟩ := number member
      obtain ⟨place, inside, here, noted⟩ := (members pc value).mp member
      exact ⟨place, inside, by rwa [pcSame], by rwa [valueSame]⟩
    · rintro ⟨place, inside, here, noted⟩
      refine ⟨_, (members _ _).mpr ⟨place, inside, here, noted⟩, ?_⟩
      rw [UInt16.ofNat_toNat, UInt16.ofNat_toNat]
  · rw [pairwise_map]
    refine sorted.imp_of_mem fun {first second} left right less => ?_
    rwa [UInt16.lt_iff_toNat_lt, (number left).1, (number right).1]

end Finished

structure Lists (calls : List Call) (code : Code) (p : Pool) (groups : List (List Instruction)) :
    Prop where
  decoded : disassemble ⟨code.bytecode.toArray⟩ = (groups.flatten, none)
  tiles : Tiles 0 groups.flatten code.bytecode.length
  shows : Forall₂ (Shows p (Marked calls (starts groups code.bytecode.length)))
    (calls.filter Call.appends) groups
  exceptions : Rows p (Marked calls (starts groups code.bytecode.length))
    (calls.filterMap Call.catcher?) code.exceptions
  lines : ∀ entry, entry ∈ code.lines ↔ ∃ place < groups.length,
    (starts groups code.bytecode.length)[place]? = some entry.pc.toNat ∧
      lastAt (lineNotes calls) place = some entry.line.toNat
  linesAscend : code.lines.Pairwise fun first second => first.pc < second.pc

structure Assembled (calls : List Call) (code : Code) (q : Pool) (a : Assembler) (laid : List Item)
    (at_ : CodeLabel → Nat) (groups : List (List Instruction)) : Prop where
  recorded : Recorded calls a
  finished : Finished a code q laid (starts groups code.bytecode.length) at_ code.bytecode.length
  shown : ItemsShow q (Marked calls (starts groups code.bytecode.length))
    (calls.filter Call.appends) 0 laid code.bytecode groups
  apart : (starts groups code.bytecode.length).Pairwise (· < ·)
  count : groups.length = laid.length

theorem assembled_of_finish {a b : Assembler} (recorded : Recorded calls a)
    (ended : Asm.finish.run.run a = (.ok code, b)) :
    ∃ laid at_ groups, Assembled calls code b.pool a laid at_ groups := by
  obtain ⟨laid, addresses, at_, stop, finished⟩ := finish_spec ended
  obtain ⟨groups, shown⟩ := finished.itemsShow recorded
  have starting : addresses = starts groups code.bytecode.length := by
    rw [finished.addresses_eq, ← shown.starts_eq, Nat.zero_add]
  have stopping : stop = code.bytecode.length := by
    have last := finished.stop_eq
    rw [starting, starts, getLast?_concat] at last
    exact (Option.some.inj last).symm
  have apart := shown.apart
  rw [← finished.addresses_eq] at apart
  subst starting stopping
  refine ⟨laid, at_, groups, recorded, finished, shown, apart, ?_⟩
  rw [← shown.shows.length_eq, ← countP_eq_length_filter, finished.length_laid recorded]
  rfl

theorem assembled_of_run {pool : Pool} (sound : pool.Sound)
    (proper : ∀ call ∈ calls, call.isProper = true) {b : Assembler}
    (ran : (do Call.runAll calls; Asm.finish : Asm Code).run.run { pool } = (.ok code, b)) :
    ∃ a laid at_ groups, Assembled calls code b.pool a laid at_ groups := by
  obtain ⟨⟨⟩, a, called, ended⟩ := Asm.bind_ok ran
  exact ⟨a, assembled_of_finish ((recorded_nil sound).runAll proper called) ended⟩

theorem Assembled.lists {q : Pool} {a : Assembler} {at_ : CodeLabel → Nat}
    {groups : List (List Instruction)} (assembled : Assembled calls code q a laid at_ groups) :
    Lists calls code q groups := by
  obtain ⟨recorded, finished, shown, apart, count⟩ := assembled
  obtain ⟨lines, linesAscend⟩ := finished.lines_spec recorded apart
  refine ⟨shown.decodes.disassemble, ?_, shown.shows, ?_, ?_, linesAscend⟩
  · have tiles := shown.decodes.tiles
    rwa [Nat.zero_add] at tiles
  · rw [finished.exceptions, ← recorded.catchers]
    exact exceptionTable_spec finished.near _
      (fun l member => finished.stands recorded (mem_append_right _ member)) recorded.sound
      finished.exceptionsGrow finished.fine
  · rwa [count]

/-- Code that is finished after calls with proper arguments lists the calls. -/
theorem lists_finish {pool : Pool} (sound : pool.Sound) {calls : List Call}
    (proper : ∀ call ∈ calls, call.isProper = true) {code : Code} {b : Assembler}
    (ran : (do Call.runAll calls; Asm.finish : Asm Code).run.run { pool } = (.ok code, b)) :
    ∃ groups, Lists calls code b.pool groups := by
  obtain ⟨a, laid, at_, groups, assembled⟩ := assembled_of_run sound proper ran
  exact ⟨groups, assembled.lists⟩

/-- A loop that counts down a local with a far slot, with a line and a handler. -/
def countdown : List Call :=
  [.newLabel, .newLabel, .mark 0, .line 7, .load "I" 300, .jump .ifeq 1, .increment 300 (-200),
    .jump .goto 0, .mark 1, .return_ "V", .catch_ ⟨0, 1, 1, ∅⟩]

def finished? (calls : List Call) : Option Code :=
  match ((do Call.runAll calls; Asm.finish : Asm Code).run.run { pool := {} }).1 with
  | .ok code => some code
  | .error _ => none

theorem run_of_finished? {α : Type} {view : Code → α} {value : α}
    (given : (finished? calls).map view = some value) :
    ∃ code b, (do Call.runAll calls; Asm.finish : Asm Code).run.run { pool := {} } =
      (.ok code, b) ∧ view code = value := by
  unfold finished? at given
  rcases ran : (do Call.runAll calls; Asm.finish : Asm Code).run.run { pool := {} }
    with ⟨stop | code, b⟩
  · rw [ran] at given
    cases given
  · rw [ran] at given
    exact ⟨code, b, rfl, Option.some.inj given⟩

theorem lists_finish_countdown :
    ∃ code b groups, (do Call.runAll countdown; Asm.finish : Asm Code).run.run { pool := {} } =
      (.ok code, b) ∧ code.bytecode = [196, 21, 1, 44, 153, 0, 12, 196, 132, 1, 44, 255, 56, 167,
        255, 243, 177] ∧ Lists countdown code b.pool groups := by
  obtain ⟨code, b, ran, bytecode⟩ := run_of_finished?
    (by decide +kernel : (finished? countdown).map Code.bytecode = some [196, 21, 1, 44, 153, 0, 12,
      196, 132, 1, 44, 255, 56, 167, 255, 243, 177])
  obtain ⟨groups, lists⟩ := lists_finish Pool.sound_empty (by decide) ran
  exact ⟨code, b, groups, ran, bytecode, lists⟩

/-- An amount of more than 16 bits is not what the listing shows. -/
theorem not_lists_increment :
    ∃ code b, (do Call.runAll [.increment 0 70000, .return_ "V"]; Asm.finish : Asm Code).run.run
      { pool := {} } = (.ok code, b) ∧
      ¬ ∃ groups, Lists [.increment 0 70000, .return_ "V"] code b.pool groups := by
  obtain ⟨code, b, ran, bytecode⟩ := run_of_finished?
    (by decide +kernel : (finished? [.increment 0 70000, .return_ "V"]).map Code.bytecode =
      some [196, 132, 0, 0, 17, 112, 177])
  refine ⟨code, b, ran, ?_⟩
  rintro ⟨groups, lists⟩
  have amounts : (disassemble ⟨#[196, 132, 0, 0, 17, 112, 177]⟩).1.map Instruction.args =
      [[0, 4464], []] := by decide +kernel
  have decoded := lists.decoded
  rw [bytecode] at decoded
  rw [decoded] at amounts
  cases lists.shows with
  | cons first rest =>
    cases first
    simp at amounts

end DexLift.Jvm
