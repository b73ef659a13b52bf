import DexLift.Proofs.Jvm.Spelling
import Mathlib.Data.List.Nodup

/-!
# Switches by the rules of the machine

The machine reads a switch out of the bytes behind its opcode, from the next multiple
of four on: a table of offsets for the keys between two bounds, or pairs of a key and
an offset in ascending order. Whichever of the two a switch over distinct keys becomes,
and wherever it ends up, the machine jumps to the target of the key that it is given,
and to the default for any other number.
-/

namespace DexLift.Jvm

open List
open Call (MarkedBefore appended)

/-! ## The rules of the machine -/

variable {listed : List (Int32 × CodeLabel)} {entries : List CodeLabel} {low : Int}

/-- The signed number that four bytes of the code spell, the highest byte first. -/
def signedAt? (code : List UInt8) (address : Nat) : Option Int :=
  match code.drop address with
  | a :: b :: c :: d :: _ => some (Int.bmod (Scan.number [a, b, c, d]) 4294967296)
  | _ => none

/-- Signed numbers, one behind the other. -/
def signedsAt? (code : List UInt8) : (count : Nat) → (address : Nat) → Option (List Int)
  | 0, _ => some []
  | count + 1, address => do
    return (← signedAt? code address) :: (← signedsAt? code count (address + 4))

/-- Pairs of signed numbers, one behind the other. -/
def pairsAt? (code : List UInt8) : (count : Nat) → (address : Nat) → Option (List (Int × Int))
  | 0, _ => some []
  | count + 1, address => do
    let key ← signedAt? code address
    let offset ← signedAt? code (address + 4)
    return (key, offset) :: (← pairsAt? code count (address + 8))

/-- A switch as the machine sees it. Offsets count from the address of the instruction. -/
inductive Branching where
  | table (default low high : Int) (offsets : List Int)
  | lookup (default : Int) (pairs : List (Int × Int))

namespace Branching

def at? (code : List UInt8) (pc : Nat) : Option Branching := do
  let opcode ← code[pc]?
  let operands := (pc + 4) / 4 * 4
  let default ← signedAt? code operands
  if opcode = 170 then
    let low ← signedAt? code (operands + 4)
    let high ← signedAt? code (operands + 8)
    if high < low then none
    else
      let offsets ← signedsAt? code (high - low + 1).toNat (operands + 12)
      return .table default low high offsets
  else if opcode = 171 then
    let count ← signedAt? code (operands + 4)
    if count < 0 then none
    else
      let pairs ← pairsAt? code count.toNat (operands + 8)
      return .lookup default pairs
  else none

/-- How far the machine jumps for a number. -/
def offset? (number : Int) : Branching → Option Int
  | table default low high offsets =>
    if number < low ∨ high < number then some default else offsets[(number - low).toNat]?
  | lookup default pairs =>
    some (((pairs.find? fun pair => pair.1 == number).map Prod.snd).getD default)

/-- A table from the least key to the greatest with an offset for each number between them, or the
keys in strictly ascending order. -/
def IsOver (keys : List Int32) : Branching → Prop
  | table _ low high offsets =>
    (∃ key ∈ keys, key.toInt = low) ∧ (∃ key ∈ keys, key.toInt = high) ∧
      (∀ key ∈ keys, low ≤ key.toInt ∧ key.toInt ≤ high) ∧ (offsets.length : Int) = high - low + 1
  | lookup _ pairs =>
    (pairs.map Prod.fst).Pairwise (· < ·) ∧ (pairs.map Prod.fst).Perm (keys.map Int32.toInt)

end Branching

/-! ## Reading numbers -/

section Reading

variable {code : List UInt8} {address : Nat}

theorem ahead_append {first second : List UInt8} (ahead : first ++ second <+: code.drop address) :
    first <+: code.drop address ∧ second <+: code.drop (address + first.length) := by
  refine ⟨(prefix_append _ _).trans ahead, ?_⟩
  obtain ⟨rest, split⟩ := ahead
  rw [← drop_drop, ← split, append_assoc, drop_left]
  exact prefix_append _ _

theorem signedAt?_of_ahead {n : Int} (low : -2147483648 ≤ n) (high : n ≤ 2147483647)
    (ahead : u4OfInt n <+: code.drop address) : signedAt? code address = some n := by
  obtain ⟨rest, split⟩ := ahead
  have spelled : signedAt? code address =
      some (Int.bmod (Scan.number (u4OfInt n)) 4294967296) := by
    rw [signedAt?, ← split]
    rfl
  rw [spelled, u4OfInt, Scan.number_u4, UInt32.toNat_ofNat', Int.bmod_def]
  exact congrArg some (by omega)

theorem signedsAt?_of_ahead {numbers : List Int}
    (bounds : ∀ n ∈ numbers, -2147483648 ≤ n ∧ n ≤ 2147483647)
    (ahead : numbers.flatMap u4OfInt <+: code.drop address) :
    signedsAt? code numbers.length address = some numbers := by
  induction numbers generalizing address with
  | nil => rfl
  | cons n numbers ih =>
    obtain ⟨bound, bounds⟩ := forall_mem_cons.mp bounds
    obtain ⟨first, later⟩ := ahead_append (flatMap_cons ▸ ahead)
    have rest : signedsAt? code numbers.length (address + 4) = some numbers :=
      ih bounds later
    rw [length_cons, signedsAt?, signedAt?_of_ahead bound.1 bound.2 first, rest]
    rfl

theorem pairsAt?_of_ahead {pairs : List (Int × Int)}
    (bounds : ∀ pair ∈ pairs, (-2147483648 ≤ pair.1 ∧ pair.1 ≤ 2147483647) ∧
      -2147483648 ≤ pair.2 ∧ pair.2 ≤ 2147483647)
    (ahead : (pairs.flatMap fun pair => u4OfInt pair.1 ++ u4OfInt pair.2) <+: code.drop address) :
    pairsAt? code pairs.length address = some pairs := by
  induction pairs generalizing address with
  | nil => rfl
  | cons pair pairs ih =>
    obtain ⟨⟨key, offset⟩, bounds⟩ := forall_mem_cons.mp bounds
    obtain ⟨here, later⟩ := ahead_append (flatMap_cons ▸ ahead)
    obtain ⟨first, second⟩ := ahead_append here
    have rest : pairsAt? code pairs.length (address + 8) = some pairs :=
      ih bounds later
    have read : signedAt? code (address + 4) = some pair.2 :=
      signedAt?_of_ahead offset.1 offset.2 second
    rw [length_cons, pairsAt?, signedAt?_of_ahead key.1 key.2 first, read, rest]
    rfl

theorem switch_ahead {o : UInt8} {pc : Nat} {default : Int} {rest : List UInt8}
    (low : -2147483648 ≤ default) (high : default ≤ 2147483647)
    (ahead : o :: replicate (switchPadding pc) 0 ++ u4OfInt default ++ rest <+: code.drop pc) :
    code[pc]? = some o ∧ signedAt? code ((pc + 4) / 4 * 4) = some default ∧
      rest <+: code.drop ((pc + 4) / 4 * 4 + 4) := by
  obtain ⟨front, behind⟩ := ahead_append ahead
  obtain ⟨first, second⟩ := ahead_append front
  have operands : pc + (o :: replicate (switchPadding pc) 0).length = (pc + 4) / 4 * 4 := by
    rw [length_cons, length_replicate, switchPadding]
    omega
  rw [operands] at second
  refine ⟨?_, signedAt?_of_ahead low high second, ?_⟩
  · obtain ⟨more, split⟩ := first
    rw [← head?_drop, ← split]
    rfl
  · rwa [length_append, ← Nat.add_assoc, operands] at behind

end Reading

/-! ## Targets by key -/

section Targets

variable {branches : List (Int32 × CodeLabel)} {default : CodeLabel} {key : Int}

theorem targetOf_mem_branches :
    targetOf branches default key ∈ default :: branches.map Prod.snd := by
  rw [targetOf]
  cases found : branches.reverse.find? fun branch => branch.1.toInt == key with
  | none => exact mem_cons_self
  | some branch =>
    have member := mem_of_find?_eq_some found
    exact mem_cons_of_mem _ (mem_map_of_mem (mem_reverse.mp member))

theorem targetOf_of_mem (distinct : (branches.map Prod.fst).Nodup) {v : Int32} {target : CodeLabel}
    (member : (v, target) ∈ branches) : targetOf branches default v.toInt = target := by
  rw [targetOf]
  cases found : branches.reverse.find? fun branch => branch.1.toInt == v.toInt with
  | none =>
    have none := find?_eq_none.mp found (v, target) (mem_reverse.mpr member)
    exact absurd (beq_self_eq_true _) none
  | some branch =>
    have chosen : (branch.1.toInt == v.toInt) = true := by
      have chosen := find?_some found
      exact chosen
    have same : branch.1 = v := Int32.toInt_inj.mp (eq_of_beq chosen)
    have listed := mem_reverse.mp (mem_of_find?_eq_some found)
    rw [inj_on_of_nodup_map distinct listed member same]
    rfl

theorem targetOf_of_not_mem {v : Int32} (other : v ∉ branches.map Prod.fst) :
    targetOf branches default v.toInt = default := by
  rw [targetOf, find?_eq_none.mpr]
  · rfl
  · intro branch member same
    have here : branch.1 = v := Int32.toInt_inj.mp (eq_of_beq same)
    exact other (here ▸ mem_map_of_mem (mem_reverse.mp member))

theorem targetOf_perm (same : listed.Perm branches) (distinct : (branches.map Prod.fst).Nodup)
    (v : Int32) : targetOf listed default v.toInt = targetOf branches default v.toInt := by
  have keys : (listed.map Prod.fst).Perm (branches.map Prod.fst) := same.map _
  by_cases member : v ∈ branches.map Prod.fst
  · obtain ⟨⟨key, target⟩, there, rfl⟩ := mem_map.mp member
    rw [targetOf_of_mem distinct there,
      targetOf_of_mem (keys.nodup_iff.mpr distinct) (same.mem_iff.mpr there)]
  · rw [targetOf_of_not_mem member, targetOf_of_not_mem (mt keys.mem_iff.mp member)]

end Targets

/-! ## Switches -/

/-- The item of a switch: a table between the least and the greatest key, or the branches by
ascending key. -/
inductive Item.Switches (branches : List (Int32 × CodeLabel)) (default : CodeLabel) :
    Item → Prop where
  | table (low : Int) (entries : List CodeLabel) (isTable : IsTable branches default low entries)
      (least : -2147483648 ≤ low) (greatest : low + entries.length ≤ 2147483648) :
      Item.Switches branches default (.switch true
        ((range entries.length).map fun (i : Nat) => low + (i : Int)) entries default)
  | lookup (listed : List (Int32 × CodeLabel)) (same : listed.Perm branches)
      (sorted : listed.Pairwise fun a b => a.1 ≤ b.1) :
      Item.Switches branches default (.switch false (listed.map fun branch => branch.1.toInt)
        (listed.map Prod.snd) default)

namespace Asm

variable {keys : List Int32} {targets : List CodeLabel}

theorem exists_lookupSwitch (enough : keys.length ≤ targets.length) (default : CodeLabel)
    (a : Assembler) :
    ∃ b item, (lookupSwitch keys targets default).run.run a = (.ok (), b) ∧
      b.items = a.items.push item ∧ b.labels = a.labels ∧
      item.Switches (keys.zip targets) default := by
  obtain ⟨same, sorted⟩ := sortBranches_spec (keys.zip targets)
  rw [lookupSwitch, if_neg (Nat.not_lt.mpr enough)]
  exact ⟨_, _, rfl, rfl, rfl, .lookup _ same sorted⟩

theorem exists_tableSwitch {branches : List (Int32 × CodeLabel)} {default : CodeLabel} {low : Int32}
    (isTable : IsTable branches default low.toInt entries)
    (greatest : low.toInt + entries.length ≤ 2147483648) (a : Assembler) :
    ∃ b item, (tableSwitch low entries default).run.run a = (.ok (), b) ∧
      b.items = a.items.push item ∧ b.labels = a.labels ∧ item.Switches branches default := by
  rw [tableSwitch, consecutive greatest]
  exact ⟨_, _, rfl, rfl, rfl, .table _ _ isTable low.le_toInt greatest⟩

theorem exists_switch (enough : keys.length ≤ targets.length) (default : CodeLabel)
    (a : Assembler) :
    ∃ b item, (switch keys targets default).run.run a = (.ok (), b) ∧
      b.items = a.items.push item ∧ b.labels = a.labels ∧
      item.Switches (keys.zip targets) default := by
  cases keys with
  | nil =>
    rw [zip_nil_left, ← zip_nil_right]
    exact @exists_lookupSwitch [] [] le_rfl default a
  | cons first rest =>
    simp only [switch]
    split
    · exact exists_lookupSwitch enough default a
    · rw [if_neg (Nat.not_lt.mpr enough)]
      have all : ((first :: rest).zip targets).map Prod.fst = first :: rest :=
        map_fst_zip enough
      obtain ⟨lowest, least⟩ := foldl_min_spec first rest
      obtain ⟨highest, greatest⟩ := foldl_max_spec first rest
      have below := greatest _ lowest
      have top := (rest.foldl max first).toInt_lt
      have size := size_denseTargets ((first :: rest).zip targets) (rest.foldl min first)
        ((rest.foldl max first).toInt - (rest.foldl min first).toInt + 1).toNat default
      rw [← all] at lowest least highest greatest
      refine exists_tableSwitch (isTable_denseTargets lowest least highest greatest default) ?_ a
      rw [Array.length_toList, size]
      omega

end Asm

/-! ## Encoded switches -/

section Encoded

variable {branches : List (Int32 × CodeLabel)} {default : CodeLabel} {code piece : List UInt8}
  {pc : Nat} {at_ : CodeLabel → Nat}

theorem at?_of_table (filled : 0 < entries.length) (least : -2147483648 ≤ low)
    (greatest : low + entries.length ≤ 2147483648) (near : ∀ l, at_ l ≤ 65535) (here : pc ≤ 65535)
    (encoded : (Item.switch true ((range entries.length).map fun (i : Nat) => low + (i : Int))
      entries default).encode pc at_ = .ok piece)
    (ahead : piece <+: code.drop pc) :
    Branching.at? code pc = some (.table ((at_ default : Int) - pc) low (low + entries.length - 1)
      (entries.map fun l => (at_ l : Int) - pc)) := by
  have bounds : ∀ l, -2147483648 ≤ (at_ l : Int) - pc ∧ (at_ l : Int) - pc ≤ 2147483647 := by
    intro l
    have close := near l
    omega
  obtain ⟨head, last⟩ := ends_consecutive low filled
  simp only [Item.encode, if_true, head, last] at encoded
  cases encoded
  rw [append_assoc, append_assoc] at ahead
  obtain ⟨opcode, first, ahead⟩ := switch_ahead (bounds default).1 (bounds default).2 ahead
  obtain ⟨lowAhead, ahead⟩ := ahead_append ahead
  obtain ⟨highAhead, ahead⟩ := ahead_append ahead
  have lowest : signedAt? code ((pc + 4) / 4 * 4 + 4) = some low :=
    signedAt?_of_ahead least (by omega) lowAhead
  have highest : signedAt? code ((pc + 4) / 4 * 4 + 8) = some (low + entries.length - 1) :=
    signedAt?_of_ahead (by omega) (by omega) highAhead
  have offsets : signedsAt? code entries.length ((pc + 4) / 4 * 4 + 12) =
      some (entries.map fun l => (at_ l : Int) - pc) := by
    rw [← flatMap_map] at ahead
    have read := signedsAt?_of_ahead (forall_mem_map.mpr fun l _ => bounds l) ahead
    rwa [length_map] at read
  have count : (low + entries.length - 1 - low + 1).toNat = entries.length := by omega
  have ordered : ¬ low + entries.length - 1 < low := by omega
  have isTable : Opcode.tableswitch.code = 170 := rfl
  simp only [Branching.at?, opcode, first, lowest, highest, Option.bind_eq_bind, Option.bind_some,
    isTable, if_true, if_neg ordered, count, offsets]
  rfl

theorem at?_of_lookup (few : listed.length ≤ 65535) (near : ∀ l, at_ l ≤ 65535) (here : pc ≤ 65535)
    (encoded : (Item.switch false (listed.map fun branch => branch.1.toInt)
      (listed.map Prod.snd) default).encode pc at_ = .ok piece)
    (ahead : piece <+: code.drop pc) :
    Branching.at? code pc = some (.lookup ((at_ default : Int) - pc)
      (listed.map fun branch => (branch.1.toInt, (at_ branch.2 : Int) - pc))) := by
  have bounds : ∀ l, -2147483648 ≤ (at_ l : Int) - pc ∧ (at_ l : Int) - pc ≤ 2147483647 := by
    intro l
    have close := near l
    omega
  rw [Item.encode, if_neg Bool.false_ne_true, length_map, zip_map', flatMap_map] at encoded
  cases encoded
  rw [append_assoc] at ahead
  obtain ⟨opcode, first, ahead⟩ := switch_ahead (bounds default).1 (bounds default).2 ahead
  obtain ⟨countAhead, ahead⟩ := ahead_append ahead
  have number : u4OfNat listed.length = u4OfInt listed.length := by
    rw [u4OfNat, u4OfInt, Int.emod_eq_of_lt (by omega) (by omega), Int.toNat_natCast]
  have count : signedAt? code ((pc + 4) / 4 * 4 + 4) = some (listed.length : Int) :=
    signedAt?_of_ahead (by omega) (by omega) (number ▸ countAhead)
  have pairs : pairsAt? code listed.length ((pc + 4) / 4 * 4 + 8) =
      some (listed.map fun branch => (branch.1.toInt, (at_ branch.2 : Int) - pc)) := by
    have pairBounds : ∀ pair ∈ listed.map fun branch => (branch.1.toInt, (at_ branch.2 : Int) - pc),
        (-2147483648 ≤ pair.1 ∧ pair.1 ≤ 2147483647) ∧
          -2147483648 ≤ pair.2 ∧ pair.2 ≤ 2147483647 := by
      refine forall_mem_map.mpr fun branch _ => ⟨?_, bounds branch.2⟩
      exact ⟨branch.1.le_toInt, Int.le_of_lt_add_one branch.1.toInt_lt⟩
    have read := pairsAt?_of_ahead pairBounds (by rwa [flatMap_map])
    rwa [length_map] at read
  have positive : ¬ (listed.length : Int) < 0 := by omega
  have isLookup : Opcode.lookupswitch.code = 171 := rfl
  have other : ¬ (171 : UInt8) = 170 := by decide
  simp only [Branching.at?, opcode, first, count, Option.bind_eq_bind, Option.bind_some, isLookup,
    if_true, if_neg other, if_neg positive, Int.toNat_natCast, pairs]
  rfl

structure Branching.Jumps (s : Branching) (pc : Nat) (at_ : CodeLabel → Nat)
    (branches : List (Int32 × CodeLabel)) (default : CodeLabel) : Prop where
  isOver : s.IsOver (branches.map Prod.fst)
  jumps : ∀ v : Int32, ∃ offset, s.offset? v.toInt = some offset ∧
    (pc : Int) + offset = at_ (targetOf branches default v.toInt)

theorem IsTable.targetOf_eq (isTable : IsTable branches default low entries) (v : Int32) :
    if v.toInt < low ∨ low + entries.length - 1 < v.toInt then
      targetOf branches default v.toInt = default
    else entries[(v.toInt - low).toNat]? = some (targetOf branches default v.toInt) := by
  split
  next outside =>
    refine targetOf_of_not_mem fun member => ?_
    obtain ⟨branch, there, rfl⟩ := mem_map.mp member
    have above := isTable.least.2 branch there
    have below := isTable.greatest.2 branch there
    omega
  next between =>
    have inside : (v.toInt - low).toNat < entries.length := by omega
    have entry := isTable.target _ _ (getElem?_eq_getElem inside)
    rw [show low + ((v.toInt - low).toNat : Int) = v.toInt by omega] at entry
    rw [getElem?_eq_getElem inside, entry]

theorem jumps_of_table (isTable : IsTable branches default low entries) :
    (Branching.table ((at_ default : Int) - pc) low (low + entries.length - 1)
      (entries.map fun l => (at_ l : Int) - pc)).Jumps pc at_ branches default := by
  obtain ⟨⟨lowest, lowMember, lowSame⟩, least⟩ := isTable.least
  obtain ⟨⟨highest, highMember, highSame⟩, greatest⟩ := isTable.greatest
  refine ⟨⟨⟨_, mem_map_of_mem lowMember, lowSame⟩, ⟨_, mem_map_of_mem highMember, highSame⟩,
    forall_mem_map.mpr fun branch member => ⟨least branch member, greatest branch member⟩,
    by rw [length_map]; omega⟩, fun v => ?_⟩
  have entry := isTable.targetOf_eq v
  rw [Branching.offset?]
  split at entry
  next outside =>
    rw [entry]
    exact ⟨_, if_pos outside, Scan.add_offset pc (at_ default)⟩
  next between =>
    rw [if_neg between, getElem?_map, entry]
    exact ⟨_, rfl, Scan.add_offset pc (at_ _)⟩

theorem jumps_of_lookup (same : listed.Perm branches)
    (sorted : listed.Pairwise fun a b => a.1 ≤ b.1) (distinct : (branches.map Prod.fst).Nodup) :
    (Branching.lookup ((at_ default : Int) - pc)
      (listed.map fun branch => (branch.1.toInt, (at_ branch.2 : Int) - pc))).Jumps pc at_ branches
      default := by
  have keys : (listed.map Prod.fst).Perm (branches.map Prod.fst) := same.map _
  refine ⟨⟨?_, ?_⟩, fun v => ?_⟩
  · -- Keys that ascend and are distinct ascend strictly.
    have apart := pairwise_map.mp (keys.nodup_iff.mpr distinct)
    rw [map_map, pairwise_map]
    refine (sorted.and apart).imp fun {first second} both => ?_
    have order := Int32.le_iff_toInt_le.mp both.1
    have differ := mt Int32.toInt_inj.mp both.2
    change first.1.toInt < second.1.toInt
    omega
  · have numbers := keys.map Int32.toInt
    rw [map_map] at numbers ⊢
    exact numbers
  · refine ⟨_, rfl, ?_⟩
    rw [← targetOf_perm ((reverse_perm listed).trans same) distinct v, targetOf,
      reverse_reverse, find?_map]
    change (pc : Int) + (((listed.find? fun branch => branch.1.toInt == v.toInt).map _).map
      Prod.snd).getD _ = _
    cases listed.find? fun branch => branch.1.toInt == v.toInt with
    | none => exact Scan.add_offset pc (at_ default)
    | some branch => exact Scan.add_offset pc (at_ branch.2)

theorem Item.Switches.exists_jumps {item : Item} (switches : item.Switches branches default)
    (distinct : (branches.map Prod.fst).Nodup) (near : ∀ l, at_ l ≤ 65535) (here : pc ≤ 65535)
    (short : piece.length ≤ 65535) (encoded : item.encode pc at_ = .ok piece)
    (ahead : piece <+: code.drop pc) :
    (∃ s, Branching.at? code pc = some s ∧ s.Jumps pc at_ branches default) ∧
      ∀ v : Int32, targetOf branches default v.toInt ∈ item.targets := by
  cases switches with
  | table low entries isTable least greatest =>
    have filled : 0 < entries.length := by
      obtain ⟨⟨highest, member, same⟩, -⟩ := isTable.greatest
      have above := isTable.least.2 highest member
      omega
    refine ⟨⟨_, at?_of_table filled least greatest near here encoded ahead,
      jumps_of_table isTable⟩, fun v => ?_⟩
    have entry := isTable.targetOf_eq v
    split at entry
    · rw [entry]
      exact mem_cons_self
    · exact .tail _ (mem_of_getElem? entry)
  | lookup listed same sorted =>
    have length := Item.length_encode (by simp [Item.IsPaired]) encoded
    rw [Item.size, if_neg Bool.false_ne_true, length_map] at length
    refine ⟨⟨_, at?_of_lookup (by omega) near here encoded ahead,
      jumps_of_lookup same sorted distinct⟩, fun v => ?_⟩
    rw [← targetOf_perm same distinct]
    exact targetOf_mem_branches

end Encoded

/-! ## Assembled switches -/

/-- A switch over distinct keys is always appended. In finished code the machine reads it at the
address of its item, as a table between the least and the greatest key or as pairs in strictly
ascending order, and jumps to where the label was marked that the number is paired with, or to the
default when it is no key. -/
theorem switch_jumps {pool : Pool} {before : List Call} {keys : List Int32}
    {targets : List CodeLabel} {default : CodeLabel} (distinct : keys.Nodup)
    (enough : keys.length ≤ targets.length) {a : Assembler}
    (called : (Call.runAll before).run.run { pool } = (.ok (), a)) :
    ∃ b, (Asm.switch keys targets default).run.run a = (.ok (), b) ∧
      ∀ (after : List Call) (c d : Assembler) (code : Code),
        (Call.runAll after).run.run b = (.ok (), c) → Asm.finish.run.run c = (.ok code, d) →
        ∃ address s, c.Spells code.bytecode address ∧
          Branching.at? code.bytecode (address (appended before)) = some s ∧ s.IsOver keys ∧
          ∀ v : Int32, ∃ l place offset,
            (∀ target, (v, target) ∈ keys.zip targets → l = target) ∧ (v ∉ keys → l = default) ∧
            MarkedBefore (before ++ .switch keys targets default :: after) l place ∧
            s.offset? v.toInt = some offset ∧
            (address (appended before) : Int) + offset = address place := by
  obtain ⟨numbered, -⟩ := (numbered_nil pool).runAll called
  rw [nil_append] at numbered
  obtain ⟨b, item, ran, items, labels, switches⟩ := Asm.exists_switch enough default a
  refine ⟨b, ran, fun after c d code called ended => ?_⟩
  have switched : (Call.switch keys targets default).run.run.run a = (.ok (), b) := ran
  obtain ⟨next, -⟩ := numbered.step switched
  obtain ⟨all, later⟩ := next.runAll called
  rw [append_assoc, singleton_append] at all
  have found : c.items[appended before]? = some item := by
    rw [items, Array.toList_push] at later
    obtain ⟨more, split⟩ := later
    rw [← Array.getElem?_toList, ← split, ← numbered.size, append_assoc, ← Array.length_toList,
      getElem?_append_right le_rfl, Nat.sub_self]
    rfl
  obtain ⟨address, spells, placed⟩ := exists_spells all.paired ended
  obtain ⟨laid, piece, lengthens, encoded, ahead, behind⟩ := spells.item _ item found
  obtain rfl : laid = item := by
    cases switches <;> cases lengthens <;> rfl
  have keysOf : (keys.zip targets).map Prod.fst = keys := map_fst_zip enough
  have short : piece.length ≤ 65535 := by
    have low := spells.low (appended before + 1)
    omega
  obtain ⟨⟨s, read, jumps⟩, listed⟩ := switches.exists_jumps (by rwa [keysOf])
    (fun l => spells.low _) (spells.low _) short encoded ahead
  refine ⟨address, s, spells, read, keysOf ▸ jumps.isOver, fun v => ?_⟩
  obtain ⟨offset, given, reached⟩ := jumps.jumps v
  have referenced : targetOf (keys.zip targets) default v.toInt ∈ c.referenced :=
    mem_append_left _ (mem_flatMap.mpr
      ⟨laid, Array.mem_toList_iff.mpr (Array.mem_of_getElem? found), listed v⟩)
  obtain ⟨place, stands⟩ := placed _ referenced
  rw [Array.getD_eq_getD_getElem?, stands] at reached
  exact ⟨_, place, offset, fun target member => targetOf_of_mem (by rwa [keysOf]) member,
    fun other => targetOf_of_not_mem (by rwa [keysOf]), all.labels _ place stands, given, reached⟩

/-- The calls in front of a switch over three numbers. -/
def forkHead : List Call := [.newLabel, .newLabel, .newLabel, .int 7]

/-- The calls behind it: three places to go to. -/
def forkTail : List Call :=
  [.mark 0, .return_ "V", .mark 1, .return_ "V", .mark 2, .return_ "V"]

def forkStart : Assembler := ((Call.runAll forkHead).run.run { pool := {} }).2

/-- The assembler behind the switch, whose keys end with the greatest number and leave one out. -/
def forkMiddle : Assembler :=
  ((Asm.switch [2147483647, 2147483644, 2147483645] [1, 0, 2] 2).run.run forkStart).2

def forkEnd : Assembler := ((Call.runAll forkTail).run.run forkMiddle).2

theorem switch_jumps_fork :
    ([2147483647, 2147483644, 2147483645] : List Int32).Nodup ∧
    (Call.runAll forkHead).run.run { pool := {} } = (.ok (), forkStart) ∧
    (Asm.switch [2147483647, 2147483644, 2147483645] [1, 0, 2] 2).run.run forkStart =
      (.ok (), forkMiddle) ∧
    (Call.runAll forkTail).run.run forkMiddle = (.ok (), forkEnd) ∧
    ∃ code d address s, Asm.finish.run.run forkEnd = (.ok code, d) ∧
      code.bytecode = [16, 7, 170, 0, 0, 0, 0, 32, 127, 255, 255, 252, 127, 255, 255, 255, 0, 0, 0,
        30, 0, 0, 0, 32, 0, 0, 0, 32, 0, 0, 0, 31, 177, 177, 177] ∧
      forkEnd.Spells code.bytecode address ∧
      Branching.at? code.bytecode (address 1) = some s ∧
      ∃ place offset, s.offset? 2147483647 = some offset ∧
        (address 1 : Int) + offset = address place := by
  have distinct : ([2147483647, 2147483644, 2147483645] : List Int32).Nodup := by decide
  have called : (Call.runAll forkHead).run.run { pool := {} } = (.ok (), forkStart) :=
    Prod.ext rfl rfl
  have tail : (Call.runAll forkTail).run.run forkMiddle = (.ok (), forkEnd) := Prod.ext rfl rfl
  obtain ⟨b, ran, jumps⟩ := @switch_jumps {} forkHead _ [1, 0, 2] 2 distinct (by decide) _ called
  obtain rfl : b = forkMiddle := by rw [forkMiddle, ran]
  have view : ((Asm.finish.run.run forkEnd).1.toOption.map Code.bytecode) =
      some [16, 7, 170, 0, 0, 0, 0, 32, 127, 255, 255, 252, 127, 255, 255, 255, 0, 0, 0, 30,
        0, 0, 0, 32, 0, 0, 0, 32, 0, 0, 0, 31, 177, 177, 177] := by decide +kernel
  rcases ended : Asm.finish.run.run forkEnd with ⟨stop | code, d⟩
  · rw [ended] at view
    cases view
  · rw [ended] at view
    obtain ⟨address, s, spells, read, -, each⟩ := jumps forkTail _ d code tail ended
    obtain ⟨l, place, offset, -, -, -, given, reached⟩ := each 2147483647
    exact ⟨distinct, called, ran, tail, code, d, address, s, rfl, Option.some.inj view, spells,
      read, place, offset, given, reached⟩

end DexLift.Jvm
