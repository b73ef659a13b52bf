import DexLift.Proofs.Jvm.Recording

/-!
# Reading assembled code back

Finished code is decoded into exactly the instructions that were asked for, in order
and without a gap. Jumps and switches lead to the instructions that their labels were
marked before, and the tables of exceptions and lines name the same addresses.
-/

namespace DexLift.Jvm

open List
open Scan (Decodes Encodes)

/-! ## Items -/

variable {p : Pool} {o : Opcode} {target default : CodeLabel} {address pc : Nat} {items : List Item}
  {stands : Standing} {at_ : CodeLabel → Nat} {a : Assembler}

theorem Item.IsFor.lengthens {p : Pool} {call : Call} {item laid : Item} (isFor : item.IsFor p call)
    (lengthens : item.Lengthens laid) : laid.IsFor p call := by
  cases lengthens with
  | same => exact isFor
  | jump o target was is =>
    cases isFor with
    | jump _ asked branch once => exact .jump is asked branch once

theorem Opcode.isOpposite_invert : ∀ o : Opcode, o.isBranch = true → o ≠ jsr → o ≠ goto →
    o.isOpposite o.invert = true :=
  forall_of_branches (by decide)

theorem Opcode.branch_of_isOpposite {o other : Opcode} (opposite : o.isOpposite other = true) :
    other.isBranch = true ∧ other ≠ goto := by
  have all : (conditionPairs ++ conditionPairs.map Prod.swap).all
      fun pair => Opcode.isBranch ⟨pair.2⟩ && (⟨pair.2⟩ : Opcode) != goto := by decide
  have both := all_eq_true.mp all (o.code, other.code) <|
    mem_append.mpr <| (of_decide_eq_true opposite).imp_right fun listed =>
      mem_map.mpr ⟨_, listed, rfl⟩
  rwa [Bool.and_eq_true, bne_iff_ne] at both

/-- Instructions that begin at an address. -/
def StartsAt (pc : Nat) (group : List Instruction) : Prop :=
  group.head?.map Instruction.pc = some pc

section Items

variable {p : Pool} {stands : Standing} {at_ : CodeLabel → Nat} {call : Call} {pc : Nat}
  {piece : List UInt8}

structure ItemShows (p : Pool) (stands : Standing) (call : Call) (pc : Nat) (piece : List UInt8)
    (group : List Instruction) : Prop where
  shows : Shows p stands call group
  decodes : Decodes pc piece group
  starts : StartsAt pc group

theorem itemShows_of_encodes {i : Instruction} (shows : Shows p stands call [i])
    (encodes : Encodes piece i) : ItemShows p stands call i.pc piece [i] :=
  ⟨shows, encodes.decodes, rfl⟩

section

variable (there : stands target address)

include there

theorem shows_short (branch : o.isBranch = true)
    (low : -32768 ≤ (address : Int) - pc) (high : (address : Int) - pc ≤ 32767) :
    ItemShows p stands (.jump o target) pc (o.code :: u2OfInt ((address : Int) - pc))
      [{ pc, op := o, args := [(address : Int)] }] := by
  have encodes : Encodes (o.code :: u2OfInt ((address : Int) - pc))
      { pc, op := o, args := [(pc : Int) + ((address : Int) - pc)] } :=
    Scan.encodes_branch branch low high
  rw [Scan.add_offset] at encodes
  exact itemShows_of_encodes (.jump pc o target address there) encodes

theorem shows_gotoW (near : address ≤ 65535) (low : pc ≤ 65535) :
    ItemShows p stands (.jump .goto target) pc (Opcode.gotoW.code :: u4OfInt ((address : Int) - pc))
      [{ pc, op := .gotoW, args := [(address : Int)] }] := by
  have encodes : Encodes (Opcode.gotoW.code :: u4OfInt ((address : Int) - pc))
      { pc, op := .gotoW, args := [(pc : Int) + ((address : Int) - pc)] } :=
    Scan.encodes_gotoW (by omega) (by omega)
  rw [Scan.add_offset] at encodes
  exact itemShows_of_encodes (.gotoW pc target address there) encodes

/-- A long jump on a condition: the branch that is taken otherwise skips the jump. -/
theorem shows_skipping (branch : o.isBranch = true)
    (once : o ≠ .jsr) (conditional : o ≠ .goto) (near : address ≤ 65535) (low : pc ≤ 65535) :
    ItemShows p stands (.jump o target) pc
      (o.invert.code :: u2OfNat 8 ++ Opcode.gotoW.code :: u4OfInt ((address : Int) - pc - 3))
      [{ pc, op := o.invert, args := [(pc : Int) + 8] },
        { pc := pc + 3, op := .gotoW, args := [(address : Int)] }] := by
  have eight : u2OfNat 8 = u2OfInt 8 := by decide
  have opposite := Opcode.isOpposite_invert o branch once conditional
  have first : Encodes (o.invert.code :: u2OfInt 8)
      { pc, op := o.invert, args := [(pc : Int) + 8] } :=
    Scan.encodes_branch (Opcode.branch_of_isOpposite opposite).1 (by decide) (by decide)
  have second : Encodes (Opcode.gotoW.code :: u4OfInt ((address : Int) - pc - 3))
      { pc := pc + 3, op := .gotoW,
        args := [((pc + 3 : Nat) : Int) + ((address : Int) - pc - 3)] } :=
    Scan.encodes_gotoW (by omega) (by omega)
  rw [show ((pc + 3 : Nat) : Int) + ((address : Int) - pc - 3) = address by omega] at second
  rw [eight]
  exact ⟨.skipping pc o _ target address there opposite, first.decodes.append second.decodes, rfl⟩

end

theorem ends_consecutive (first : Int) {count : Nat} (filled : 0 < count) :
    ((range count).map fun (i : Nat) => first + (i : Int)).head? = some first ∧
      ((range count).map fun (i : Nat) => first + (i : Int)).getLast? =
        some (first + (count : Int) - 1) := by
  obtain ⟨count, rfl⟩ := Nat.exists_eq_succ_of_ne_zero (Nat.ne_of_gt filled)
  constructor
  · simp [range_succ_eq_map]
  · rw [getLast?_map, range_succ, getLast?_concat, Option.map_some]
    exact congrArg some (by omega)

theorem encodes_table {targets : List CodeLabel} {first : Int} (least : -2147483648 ≤ first)
    (greatest : first + targets.length ≤ 2147483648) (near : ∀ l, at_ l ≤ 65535) (low : pc ≤ 65535)
    (encoded : (Item.switch true ((range targets.length).map fun (i : Nat) =>
      first + (i : Int)) targets default).encode pc at_ = .ok piece) :
    Encodes piece (.table at_ pc first targets default) := by
  cases targets with
  | nil => cases encoded
  | cons target targets =>
    rw [length_cons] at greatest encoded
    have length : ((target :: targets).map at_).length = targets.length + 1 := by simp
    obtain ⟨head, last⟩ := ends_consecutive first (Nat.succ_pos targets.length)
    have nears : ∀ address ∈ (target :: targets).map at_, address ≤ 65535 := by grind
    have encodes := Scan.encodes_tableswitch low (near default) nears (by simp) least
      (by rw [length]; omega)
    rw [flatMap_map, length] at encodes
    simp only [Item.encode, if_true, head, last] at encoded
    cases encoded
    exact encodes

theorem encodes_lookup {branches : List (Int32 × CodeLabel)} (few : branches.length ≤ 65535)
    (near : ∀ l, at_ l ≤ 65535) (low : pc ≤ 65535)
    (encoded : (Item.switch false (branches.map fun branch => branch.1.toInt)
      (branches.map Prod.snd) default).encode pc at_ = .ok piece) :
    Encodes piece (.lookup at_ pc branches default) := by
  have nears : ∀ branch ∈ branches.map fun branch => (branch.1.toInt, at_ branch.2),
      (-2147483648 ≤ branch.1 ∧ branch.1 ≤ 2147483647) ∧ branch.2 ≤ 65535 := by
    intro branch member
    obtain ⟨branch, -, rfl⟩ := mem_map.mp member
    exact ⟨⟨branch.1.le_toInt, Int.le_of_lt_add_one branch.1.toInt_lt⟩, near branch.2⟩
  have encodes := Scan.encodes_lookupswitch low (near default) (by rwa [length_map]) nears
  rw [flatMap_map, flatMap_map, length_map] at encodes
  rw [Item.encode, if_neg nofun, length_map, zip_map', flatMap_map] at encoded
  cases encoded
  exact encodes

theorem length_table (first : Int) (targets : List CodeLabel) (default : CodeLabel) :
    (Instruction.table at_ pc first targets default).length =
      13 + switchPadding pc + 4 * targets.length := by
  simp only [Instruction.length, Instruction.table, Bool.false_eq_true, if_false, if_true,
    length_cons, length_tableArgs, length_map]
  omega

theorem length_lookup (branches : List (Int32 × CodeLabel)) (default : CodeLabel) :
    (Instruction.lookup at_ pc branches default).length =
      9 + switchPadding pc + 8 * branches.length := by
  have other : Opcode.lookupswitch ≠ .tableswitch := by decide
  have cases : (branches.flatMap fun branch => [branch.1.toInt, (at_ branch.2 : Int)]).length =
      2 * branches.length := by
    simp [length_flatMap, Nat.mul_comm]
  simp only [Instruction.length, Instruction.lookup, Bool.false_eq_true, if_false, other, if_true,
    length_cons, cases]
  omega

theorem Item.IsFor.itemShows {item : Item} (isFor : item.IsFor p call)
    (reaches : item.Reaches at_ pc) (near : ∀ l, at_ l ≤ 65535)
    (there : ∀ l ∈ item.targets, stands l (at_ l)) (fits : pc + item.size pc ≤ 65535)
    (encoded : item.encode pc at_ = .ok piece) :
    ∃ group, ItemShows p stands call pc piece group ∧ piece.length = item.size pc := by
  have low : pc ≤ 65535 := le_trans (Nat.le_add_right _ _) fits
  cases isFor with
  | bytes shows =>
    cases encoded
    obtain ⟨i, rfl, encodes, shown⟩ := shows pc stands
    exact ⟨[i], itemShows_of_encodes shown encodes, rfl⟩
  | @jump o target isLong asked branch once =>
    subst asked
    have placed : stands target (at_ target) := there target mem_cons_self
    cases isLong with
    | false =>
      cases encoded
      exact ⟨_, shows_short placed branch reaches.1 reaches.2, rfl⟩
    | true =>
      by_cases always : o = .goto
      · subst always
        cases encoded
        exact ⟨_, shows_gotoW placed (near target) low, rfl⟩
      · simp only [Item.encode, Bool.not_true, Bool.false_eq_true, if_false, always] at encoded
        cases encoded
        refine ⟨_, shows_skipping placed branch once always (near target) low, ?_⟩
        simp only [Item.size, Bool.not_true, Bool.false_eq_true, if_false, always]
        rfl
  | @table targets default first least greatest shows =>
    have encodes := encodes_table least greatest near low encoded
    refine ⟨_, itemShows_of_encodes (shows pc stands at_ there) encodes, ?_⟩
    rw [encodes.size, length_table]
    simp only [Item.size, if_true]
    omega
  | @lookup default branches shows =>
    have size : (Item.switch false (branches.map fun branch => branch.1.toInt)
        (branches.map Prod.snd) default).size pc = 9 + switchPadding pc + 8 * branches.length := by
      simp only [Item.size, Bool.false_eq_true, if_false, length_map]
      omega
    rw [size] at fits
    have encodes := encodes_lookup (by omega) near low encoded
    refine ⟨_, itemShows_of_encodes (shows pc stands at_ there) encodes, ?_⟩
    rw [encodes.size, length_lookup, size]

end Items

/-! ## Lists of items -/

/-- The addresses of groups of instructions, and the address behind the last. -/
def starts (groups : List (List Instruction)) (stop : Nat) : List Nat :=
  groups.map (fun group => (group.head?.map Instruction.pc).getD stop) ++ [stop]

theorem le_of_mem_addressesFrom (member : address ∈ addressesFrom pc items) : pc ≤ address := by
  induction items generalizing pc with
  | nil => exact le_of_eq (mem_singleton.mp member).symm
  | cons item items ih =>
    rcases mem_cons.mp member with rfl | later
    · exact le_rfl
    · exact le_trans (Nat.le_add_right _ _) (ih later)

theorem mem_addressesFrom (pc : Nat) (items : List Item) : pc ∈ addressesFrom pc items := by
  cases items <;> exact mem_cons_self

theorem Scan.Decodes.pos {bytes : List UInt8} {found : List Instruction}
    (decodes : Decodes pc bytes found) (filled : found ≠ []) : 0 < bytes.length := by
  cases decodes with
  | done => exact absurd rfl filled
  | @step i piece more rest first behind =>
    have pos := i.length_pos
    rw [← first.size] at pos
    rw [length_append]
    omega

structure ItemsShow (p : Pool) (stands : Standing) (calls : List Call) (pc : Nat)
    (items : List Item) (code : List UInt8) (groups : List (List Instruction)) : Prop where
  shows : Forall₂ (Shows p stands) calls groups
  decodes : Decodes pc code groups.flatten
  starts_eq : starts groups (pc + code.length) = addressesFrom pc items
  apart : (addressesFrom pc items).Pairwise (· < ·)

theorem itemsShow (near : ∀ l, at_ l ≤ 65535) {calls : List Call}
    (isFor : Forall₂ (Item.IsFor p) calls items) {pieces : List (List UInt8)}
    (reaches : ∀ pair ∈ items.zip (addressesFrom pc items), pair.1.Reaches at_ pair.2)
    (there : ∀ l ∈ items.flatMap Item.targets, stands l (at_ l))
    (low : ∀ address ∈ addressesFrom pc items, address ≤ 65535)
    (encoded : (items.zip (addressesFrom pc items)).mapM
      (fun pair => pair.1.encode pair.2 at_) = .ok pieces) :
    ∃ groups, ItemsShow p stands calls pc items pieces.flatten groups := by
  induction isFor generalizing pc pieces with
  | nil =>
    cases encoded
    exact ⟨[], .nil, .done pc, rfl, pairwise_singleton _ _⟩
  | @cons call item calls items here _ ih =>
    rw [addressesFrom, zip_cons_cons] at reaches encoded
    rw [addressesFrom] at low
    rw [flatMap_cons] at there
    obtain ⟨reach, reaches⟩ := forall_mem_cons.mp reaches
    obtain ⟨-, lower⟩ := forall_mem_cons.mp low
    rw [mapM_cons] at encoded
    obtain ⟨piece, first, encoded⟩ := Outcome.bind_ok.mp encoded
    obtain ⟨more, second, encoded⟩ := Outcome.bind_ok.mp encoded
    cases encoded
    obtain ⟨group, shown, size⟩ :
        ∃ group, ItemShows p stands call pc piece group ∧ piece.length = item.size pc :=
      here.itemShows reach near (fun l member => there l (mem_append_left _ member))
        (lower _ (mem_addressesFrom _ _)) first
    obtain ⟨groups, rest⟩ := ih reaches
      (fun l member => there l (mem_append_right _ member)) lower second
    have filled : group ≠ [] := by
      rintro rfl
      cases shown.starts
    have pos := shown.decodes.pos filled
    refine ⟨group :: groups, .cons shown.shows rest.shows, ?_, ?_, ?_⟩
    · refine shown.decodes.append ?_
      rw [size]
      exact rest.decodes
    · have first : (group.head?.map Instruction.pc).getD (pc + (piece :: more).flatten.length) =
          pc := by
        rw [shown.starts, Option.getD_some]
      rw [starts, map_cons, cons_append, first, addressesFrom, ← rest.starts_eq,
        flatten_cons, length_append, ← Nat.add_assoc, size]
      rfl
    · rw [addressesFrom]
      refine pairwise_cons.mpr ⟨fun address member => ?_, rest.apart⟩
      have behind := le_of_mem_addressesFrom member
      omega

/-! ## Finishing -/

structure ExceptionEntry.IsFor (p : Pool) (stands : Standing) (c : Catcher) (e : ExceptionEntry) :
    Prop where
  start : stands c.start e.start.toNat
  stop : stands c.stop e.stop.toNat
  handler : stands c.handler e.handler.toNat
  type : if c.type.isEmpty then e.type = 0 else p.IsClass e.type c.type

/-- The rows of an exception table: one for each catcher, in order, without the ranges that hold no
code. -/
inductive Rows (p : Pool) (stands : Standing) : List Catcher → List ExceptionEntry → Prop where
  | nil : Rows p stands [] []
  | empty {c : Catcher} {catchers : List Catcher} {rows : List ExceptionEntry} (start stop : Nat)
      (begins : stands c.start start) (ends : stands c.stop stop) (none : stop ≤ start)
      (rest : Rows p stands catchers rows) : Rows p stands (c :: catchers) rows
  | row {c : Catcher} {e : ExceptionEntry} {catchers : List Catcher} {rows : List ExceptionEntry}
      (isFor : e.IsFor p stands c) (some : e.start < e.stop) (rest : Rows p stands catchers rows) :
      Rows p stands (c :: catchers) (e :: rows)

def Catcher.references (c : Catcher) : List CodeLabel := [c.start, c.stop, c.handler]

theorem exceptionTable_spec (near : ∀ l, at_ l ≤ 65535) (catchers : List Catcher)
    (there : ∀ l ∈ catchers.flatMap Catcher.references, stands l (at_ l)) (sound : p.Sound)
    {q : Pool} (later : ((Assembler.exceptionTable at_ catchers).run p).2.Grows q)
    (fine : q.failure = none) :
    Rows q stands catchers ((Assembler.exceptionTable at_ catchers).run p).1 := by
  induction catchers generalizing p with
  | nil => exact .nil
  | cons c catchers ih =>
    rw [flatMap_cons] at there
    have begins : stands c.start (at_ c.start) := there _ (by simp [Catcher.references])
    have ends : stands c.stop (at_ c.stop) := there _ (by simp [Catcher.references])
    have handles : stands c.handler (at_ c.handler) := there _ (by simp [Catcher.references])
    have behind : ∀ l ∈ catchers.flatMap Catcher.references, stands l (at_ l) := fun l member =>
      there l (mem_append_right _ member)
    by_cases empty : at_ c.start ≥ at_ c.stop
    · have same : Assembler.exceptionTable at_ (c :: catchers) =
          Assembler.exceptionTable at_ catchers := by
        rw [Assembler.exceptionTable, if_pos empty]
      rw [same] at later ⊢
      exact .empty _ _ begins ends empty (ih behind sound later)
    · -- The type is asked for first, and the other rows with the pool that leaves.
      let asked : Intern UInt16 := if c.type.isEmpty then pure 0 else Pool.class_ c.type
      let row : ExceptionEntry :=
        { start := UInt16.ofNat (at_ c.start), stop := UInt16.ofNat (at_ c.stop)
          handler := UInt16.ofNat (at_ c.handler), type := (asked.run p).1 }
      have number : ∀ l, (UInt16.ofNat (at_ l)).toNat = at_ l := fun l =>
        UInt16.toNat_ofNat_of_lt' (Nat.lt_succ_of_le (near l))
      have adds : Intern.Adds asked := (Intern.Adds.pure 0).ite (Pool.adds_class _)
      have run : (Assembler.exceptionTable at_ (c :: catchers)).run p =
          (row :: ((Assembler.exceptionTable at_ catchers).run (asked.run p).2).1,
            ((Assembler.exceptionTable at_ catchers).run (asked.run p).2).2) := by
        rw [Assembler.exceptionTable, if_neg empty]
        by_cases all : c.type.isEmpty
        · simp only [row, asked, if_pos all]
          rfl
        · simp only [row, asked, if_neg all]
          rfl
      rw [run] at later ⊢
      have grown : (asked.run p).2.Grows q :=
        (Assembler.adds_exceptionTable at_ catchers (asked.run p).2).trans later
      have isFor : row.IsFor q stands c := by
        refine ⟨?_, ?_, ?_, ?_⟩
        · rwa [number]
        · rwa [number]
        · rwa [number]
        · by_cases all : c.type.isEmpty
          · simp only [row, asked, if_pos all]
            rfl
          · rw [if_neg all]
            simp only [row, asked, if_neg all] at grown ⊢
            exact (Pool.isClass_class sound (grown.fine fine)).grow grown
      refine .row isFor ?_ (ih behind ((adds p).sound sound) later)
      rw [UInt16.lt_iff_toNat_lt, number, number]
      exact Nat.lt_of_not_ge empty

/-- The labels that something refers to. -/
def Assembler.referenced (a : Assembler) : List CodeLabel :=
  a.items.toList.flatMap Item.targets ++ a.catchers.toList.flatMap Catcher.references

theorem Assembler.placed_of_strayLabel? (none : a.strayLabel? = none) {l : CodeLabel}
    (member : l ∈ a.referenced) : ∃ place, a.labels[l]? = some (some place) := by
  have placed : ¬ (a.labels.getD l Option.none).isNone = true := by
    unfold strayLabel? at none
    dsimp only at none
    rw [Option.orElse_eq_orElse, Option.orElse_eq_or, Option.or_eq_none_iff,
      Option.map_eq_none_iff, Option.map_eq_none_iff, find?_eq_none,
      find?_eq_none] at none
    rcases mem_append.mp member with jumped | caught
    · exact none.1 l jumped
    · exact none.2 l caught
  rw [Array.getD_eq_getD_getElem?] at placed
  rcases found : a.labels[l]? with _ | _ | place
  · rw [found] at placed
    exact absurd rfl placed
  · rw [found] at placed
    exact absurd rfl placed
  · exact ⟨place, rfl⟩

/-- What finished code is made of: the items as they were laid out, with their addresses, and the
pool in the end. -/
structure Finished (a : Assembler) (code : Code) (q : Pool) (laid : List Item)
    (addresses : List Nat) (at_ : CodeLabel → Nat) (stop : Nat) : Prop where
  addresses_eq : addresses = addressesFrom 0 laid
  labelled : at_ = addressOf a.labels addresses.toArray
  stop_eq : addresses.getLast? = some stop
  laidOut : Laid a.labels a.items.toList laid
  placed : ∀ l ∈ a.referenced, ∃ place, a.labels[l]? = some (some place)
  low : stop ≤ 65535
  encoded : ∃ pieces, (laid.zip addresses).mapM (fun pair => pair.1.encode pair.2 at_) =
    .ok pieces ∧ code.bytecode = pieces.flatten
  exceptions : code.exceptions = ((Assembler.exceptionTable at_ a.catchers.toList).run a.pool).1
  exceptionsGrow : ((Assembler.exceptionTable at_ a.catchers.toList).run a.pool).2.Grows q
  lines : code.lines = (Assembler.byAddress addresses.toArray stop a.lines.toList).map fun entry =>
    { pc := UInt16.ofNat entry.1, line := UInt16.ofNat entry.2 }
  stackMap : code.stackMap =
    if (Assembler.byAddress addresses.toArray stop a.frames.toList).isEmpty then none
    else some ((encodeStackMap a.initial
      (Assembler.byAddress addresses.toArray stop a.frames.toList)).run
        ((Assembler.exceptionTable at_ a.catchers.toList).run a.pool).2).1
  stackMapGrows : ¬ (Assembler.byAddress addresses.toArray stop a.frames.toList).isEmpty →
    ((encodeStackMap a.initial (Assembler.byAddress addresses.toArray stop a.frames.toList)).run
      ((Assembler.exceptionTable at_ a.catchers.toList).run a.pool).2).2.Grows q
  maxStack : code.maxStack = UInt16.ofNat a.maxStack.toNat
  maxLocals : code.maxLocals = UInt16.ofNat a.maxLocals
  fine : q.failure = none

theorem run_unless_failed {b : Assembler} {code result : Code}
    (ran : (do
      if let some failure := (← get).pool.failure then throw (.failed failure)
      return code : Asm Code).run.run a = (.ok result, b)) :
    result = code ∧ b = a ∧ a.pool.failure = none := by
  rw [Asm.run_bind_of_ok (rfl : (get : Asm Assembler).run.run a = (.ok a, a))] at ran
  cases failed : a.pool.failure with
  | some failure =>
    rw [failed] at ran
    cases ran
  | none =>
    rw [failed] at ran
    cases ran
    exact ⟨rfl, rfl, rfl⟩

theorem finish_spec {b : Assembler} {code : Code} (ran : Asm.finish.run.run a = (.ok code, b)) :
    ∃ laid addresses at_ stop, Finished a code b.pool laid addresses at_ stop := by
  obtain ⟨laid, ended, laidOut⟩ := layout_spec a.labels a.items.size a.items.toList
    (by rw [Array.length_toList]; exact Nat.le_add_right _ _)
  unfold Asm.finish at ran
  rw [Asm.run_bind_of_ok (rfl : (get : Asm Assembler).run.run a = (.ok a, a))] at ran
  cases failed : a.failure with
  | some failure =>
    rw [failed] at ran
    cases ran
  | none =>
    rw [failed] at ran
    cases stray : a.strayLabel? with
    | some label =>
      rw [stray] at ran
      cases ran
    | none =>
      rw [stray, ended] at ran
      obtain ⟨stop, last⟩ : ∃ stop, (addressesFrom 0 laid).getLast? = some stop :=
        ⟨_, getLast?_eq_some_getLast (ne_nil_of_mem (mem_addressesFrom 0 laid))⟩
      simp only [back?_toArray, last, Option.getD_some] at ran
      generalize labelled : addressOf a.labels (addressesFrom 0 laid).toArray = at_ at ran
      by_cases long : stop > 65535
      · rw [if_pos long] at ran
        cases ran
      · rw [if_neg long] at ran
        obtain ⟨pieces, c, lifted, ran⟩ := Asm.bind_ok ran
        obtain ⟨encoded, rfl⟩ := Prod.mk.inj lifted
        rw [Asm.run_bind_of_ok (Asm.run_intern _ a)] at ran
        split at ran
        next unframed =>
          obtain ⟨rfl, rfl, fine⟩ := run_unless_failed ran
          exact ⟨laid, _, at_, stop, rfl, labelled.symm, last, laidOut,
            fun l => a.placed_of_strayLabel? stray, Nat.le_of_not_gt long,
            ⟨pieces, encoded, rfl⟩, rfl, .refl _, rfl, (if_pos unframed).symm, absurd unframed, rfl,
            rfl, fine⟩
        next framed =>
          rw [map_eq_pure_bind, bind_assoc, Asm.run_bind_of_ok (Asm.run_intern _ _)] at ran
          obtain ⟨rfl, rfl, fine⟩ := run_unless_failed ran
          exact ⟨laid, _, at_, stop, rfl, labelled.symm, last, laidOut,
            fun l => a.placed_of_strayLabel? stray, Nat.le_of_not_gt long,
            ⟨pieces, encoded, rfl⟩, rfl, adds_encodeStackMap _ _ _, rfl, (if_neg framed).symm,
            fun _ => .refl _, rfl, rfl, fine⟩

end DexLift.Jvm
