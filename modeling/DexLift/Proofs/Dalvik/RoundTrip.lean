import DexLift.Proofs.Dalvik.Encoding

/-!
# Decoding undoes encoding
-/

namespace DexLift

open List
open Outcome (ok_bind mapM_of_ok mem_of_mapM)

namespace Dex

/-! ## Programs -/

variable {i : Instruction} {format : Format} {found : List Instruction} {addr : UInt32}

/-- A part of the code. -/
inductive Item where
  | instruction (i : Instruction)
  | table (t : Table)

def Item.units : Item → List UInt16
  | instruction i => i.units
  | table t => t.units

def Item.instruction? : Item → Option Instruction
  | instruction i => some i
  | table _ => none

/-- Items that stand one behind the other. -/
abbrev Program := List Item

namespace Program

def encode (program : Program) : List UInt16 := program.flatMap Item.units

def instructions (program : Program) : List Instruction := program.filterMap Item.instruction?

/-- Items and where they stand, when the first one stands at `p`. -/
def positions (p : Nat) : Program → List (Nat × Item)
  | [] => []
  | item :: rest => (p, item) :: positions (p + item.units.length) rest

end Program

def Item.FitsAt (p : Nat) : Item → Prop
  | instruction i => i.addr.toNat = p ∧ i.FitsIn i.op.encoding
  | table t => t.Fits

def Starts (found : List Instruction) (addr : UInt32) : Prop := ∃ j ∈ found, j.addr = addr

def Item.IsTableOf (p : Nat) (i : Instruction) : Item → Prop
  | instruction _ => False
  | table t => i.target.toNat = p ∧ t.user = i.op.code ∧ i.payload = some (t.payload i.addr)

def Payload.Leads (found : List Instruction) : Payload → Prop
  | branches _ targets => ∀ a ∈ targets, Starts found a
  | elements .. => True

/-- An encoding with a branch target. -/
def Format.isBranch : Format → Bool
  | f10t | f20t | f30t | f21t | f22t => true
  | _ => false

@[mk_iff]
structure Instruction.LeadsIn (program : Program) (format : Format) (i : Instruction) : Prop where
  branch : format.isBranch → Starts program.instructions i.target
  table : format = .f31t → ∃ entry ∈ program.positions 0, entry.2.IsTableOf entry.1 i
  switch : ∀ payload ∈ i.payload, payload.Leads program.instructions
  bare : format ≠ .f31t → i.payload = none

/-- A program as a code item may hold it: operands in range, each instruction at its address,
branches and switches to instructions, and no more units than there are addresses. -/
@[mk_iff]
structure Program.LaidOut (program : Program) : Prop where
  fits : ∀ entry ∈ program.positions 0, entry.2.FitsAt entry.1
  leads : ∀ i ∈ program.instructions, i.LeadsIn program i.op.encoding
  short : program.encode.length < 2 ^ 32

instance (p : Nat) (item : Item) : Decidable (item.FitsAt p) :=
  match item with
  | .instruction _ => inferInstanceAs (Decidable (_ ∧ _))
  | .table _ => inferInstanceAs (Decidable (Table.Fits _))

instance (found : List Instruction) (addr : UInt32) : Decidable (Starts found addr) :=
  inferInstanceAs (Decidable (∃ j ∈ found, j.addr = addr))

instance (p : Nat) (i : Instruction) (item : Item) : Decidable (item.IsTableOf p i) :=
  match item with
  | .instruction _ => inferInstanceAs (Decidable False)
  | .table _ => inferInstanceAs (Decidable (_ ∧ _ ∧ _))

instance (found : List Instruction) (payload : Payload) : Decidable (payload.Leads found) :=
  match payload with
  | .branches _ targets => List.decidableBAll (Starts found) targets
  | .elements _ _ => inferInstanceAs (Decidable True)

instance (program : Program) (format : Format) (i : Instruction) :
    Decidable (i.LeadsIn program format) :=
  decidable_of_iff _ (i.leadsIn_iff program format).symm

instance (program : Program) : Decidable program.LaidOut :=
  decidable_of_iff _ program.laidOut_iff.symm

/-- The tables of array contents are for elements of primitive types. -/
def Program.IsPlain (program : Program) : Prop :=
  ∀ p t, (p, .table t) ∈ program.positions 0 → t.IsPlain

/-- An instruction before its table is attached. -/
def Instruction.bare (i : Instruction) : Instruction := { i with payload := none }

/-! ## Finding the instructions -/

variable {units : Array UInt16} {p : Nat}

theorem Instruction.word_zero (is : i.op.format = format) (named : format.Names i.regs) :
    ∃ high : UInt16, high.toNat < 256 ∧ i.word 0 = i.opcodeUnit high ∧
      (format = .f10x → high = 0) := by
  unfold word Instruction.units reg
  generalize i.regs = regs at named ⊢
  rw [i.op.encoding_eq, is]
  cases format <;> simp only [getD_cons_zero, reduceCtorEq, false_implies, and_true]
  case f10x => exact ⟨0, by decide, rfl, fun _ => rfl⟩
  case f20t | f30t | f32x => exact ⟨0, by decide, rfl⟩
  case f10t => exact ⟨_, toNat_lowBits_lt _ (by decide) _, rfl⟩
  case f35c | f45cc =>
    have last := getD_fits named.2 4
    have count : (UInt16.ofNat regs.length).toNat = regs.length :=
      UInt16.toNat_ofNat_of_lt' (lt_of_le_of_lt named.1 (by decide))
    have few := named.1
    exact ⟨_, by rw [toNat_nibbles last (by omega)]; omega, rfl⟩
  case f3rc | f4rcc =>
    have short := named.1
    exact ⟨_, by rw [UInt16.toNat_ofNat']; omega, rfl⟩
  case f11n =>
    obtain _ | ⟨a, ⟨⟩⟩ := named
    have b := toNat_lowBits_lt 4 (by decide) (i.lit.toInt / 2 ^ i.literalShift)
    exact ⟨_, by rw [getD_cons_zero, toNat_nibbles a b]; omega, rfl⟩
  case f12x | f22t | f22s | f22c =>
    obtain _ | ⟨a, _ | ⟨b, ⟨⟩⟩⟩ := named
    exact ⟨_, by rw [getD_cons_zero, getD_cons_succ, getD_cons_zero, toNat_nibbles a b]; omega, rfl⟩
  all_goals
    obtain _ | ⟨a, _⟩ := named
    exact ⟨_, a, rfl⟩

theorem format_zero {op : Opcode} (zero : op.code = 0) : op.format = .f10x := by
  obtain ⟨code⟩ := op
  subst zero
  rw [← Opcode.encoding_eq]
  decide

namespace StandsAt

variable {i : Instruction} {format : Format} {ws : List UInt16}

theorem getD_word (stands : StandsAt units p (i.units ++ ws)) {k : Nat} (inside : k < i.size) :
    units.getD (p + k) 0 = i.word k := by
  have here := getElem?_eq_getElem (l := i.units) (i := k) (by rwa [i.length_units])
  have there := stands.front k _ here
  rw [Array.getD_eq_getD_getElem?, there, Instruction.word, getD_eq_getElem?_getD, here]

section

variable (stands : StandsAt units p (i.units ++ ws)) (is : i.op.format = format)
  (fits : i.FitsIn format)

include stands is fits

theorem payloadSize?_none : payloadSize? units p = none := by
  have first := stands.getD_word (k := 0) i.op.format.units_pos
  obtain ⟨high, byte, word, zero⟩ := Instruction.word_zero is fits.registers
  rw [Nat.add_zero, word] at first
  have value := Instruction.toNat_opcodeUnit (i := i) byte
  -- A mark has the opcode zero in its low byte, whose only unit is zero.
  have other : ∀ mark : UInt16, mark.toNat % 256 = 0 → 0 < mark.toNat →
      i.opcodeUnit high ≠ mark := by
    rintro mark low positive rfl
    have code : i.op.code = 0 := by
      rw [← UInt8.toNat_inj]
      change _ = 0
      have := i.op.code.toNat_lt
      omega
    have none := zero (is.symm.trans (format_zero code))
    rw [none] at value positive
    rw [code] at value
    change _ = 0 at value
    omega
  rw [payloadSize?, first, if_neg (other _ (by decide) (by decide)),
    if_neg (other _ (by decide) (by decide)), if_neg (other _ (by decide) (by decide))]

theorem opcodeAt_eq : opcodeAt units p = i.op := by
  have first := stands.getD_word (k := 0) i.op.format.units_pos
  obtain ⟨high, byte, word, -⟩ := Instruction.word_zero is fits.registers
  rw [Nat.add_zero, word] at first
  have value := Instruction.toNat_opcodeUnit (i := i) byte
  have bound := i.op.code.toNat_lt
  have low : (i.opcodeUnit high).toUInt8 = i.op.code := by
    rw [← UInt8.toNat_inj, UInt16.toNat_toUInt8, value]
    omega
  rw [opcodeAt, first, low]

theorem decodeOne_eq (here : i.addr.toNat = p) :
    decodeOne (fun k => units.getD (p + k) 0) (UInt32.ofNat p) i.op = i.bare := by
  rw [decodeOne_congr (w := i.word) fun k inside => stands.getD_word inside, ← here,
    UInt32.ofNat_toNat]
  exact Instruction.decodeOne_word is fits

end

end StandsAt

variable {program : Program}

theorem scan_eq (fits : ∀ entry ∈ program.positions p, entry.2.FitsAt entry.1)
    (stands : StandsAt units p program.encode) (last : p + program.encode.length = units.size) :
    scan units p = .ok (program.instructions.map Instruction.bare) := by
  induction program generalizing p with
  | nil =>
    rw [scan, if_neg (by simpa [Program.encode] using le_of_eq last.symm)]
    rfl
  | cons item rest ih =>
    have further := ih (p := p + item.units.length)
      (fun entry listed => fits entry (.tail _ listed))
    have here := fits _ mem_cons_self
    rw [Program.encode, flatMap_cons] at stands
    rw [Program.encode, flatMap_cons, length_append] at last
    have rest_eq := further stands.behind (by rw [Program.encode]; omega)
    cases item with
    | instruction i =>
      obtain ⟨at_, inRange⟩ := here
      have wide : 0 < i.op.format.units := i.op.format.units_pos
      have size : i.units.length = i.op.format.units := i.length_units
      dsimp only [Item.units] at stands last rest_eq
      rw [size] at last rest_eq
      have is := i.op.encoding_eq.symm
      rw [scan, if_pos (by omega), stands.payloadSize?_none is inRange]
      dsimp only
      rw [stands.opcodeAt_eq is inRange, if_neg (by omega), rest_eq,
        stands.decodeOne_eq is inRange at_]
      rfl
    | table t =>
      have size := Table.payloadSize?_eq here stands.front
      have some : 0 < t.units.length := by
        rw [Table.length_units]
        cases t <;> dsimp only <;> omega
      dsimp only [Item.units] at last rest_eq
      rw [scan, if_pos (by omega), size]
      dsimp only
      rw [if_neg (by omega), rest_eq]
      rfl

/-! ## Attaching the tables -/

theorem StandsAt.whole (ws : List UInt16) : StandsAt ws.toArray 0 ws := by
  intro k w here
  rw [Nat.zero_add, getElem?_toArray, here]

theorem StandsAt.of_mem_positions (stands : StandsAt units p program.encode) {q : Nat} {item : Item}
    (listed : (q, item) ∈ program.positions p) : StandsAt units q item.units := by
  induction program generalizing p with
  | nil => cases listed
  | cons first rest ih =>
    rw [Program.encode, flatMap_cons] at stands
    rcases mem_cons.mp listed with same | later
    · cases same
      exact stands.front
    · exact ih stands.behind later

theorem isStart_bare : isStart (found.map Instruction.bare) addr = true ↔ Starts found addr := by
  simp [isStart, Starts, Instruction.bare]

theorem Table.readBy {t : Table} (fits : t.Fits) (plain : t.IsPlain) (stands : StandsAt units p t.units)
    (user : t.user = i.op.code) :
    (i.op.code = 0x26 → readElements units i p = .ok (t.payload i.addr)) ∧
      (i.op.code ≠ 0x26 →
        readBranches units i (i.op.code == 0x2b) p = .ok (t.payload i.addr)) := by
  rw [← user]
  cases t with
  | packed first offsets =>
    have other : (0x2b : UInt8) ≠ 0x26 := by decide
    exact ⟨fun same => absurd same other, fun _ => readBranches_packed fits stands⟩
  | sparse entries =>
    have other : (0x2c : UInt8) ≠ 0x26 := by decide
    exact ⟨fun same => absurd same other, fun _ => readBranches_sparse fits stands⟩
  | array width values =>
    exact ⟨fun _ => readElements_array fits plain stands, fun other => absurd rfl other⟩

theorem attach_found {payload : Payload} (i : Instruction) :
    payload.Leads found → i.withPayload (found.map Instruction.bare) payload =
      .ok { i with payload := some payload } := by
  intro leads
  cases payload with
  | elements width values => rfl
  | branches keys targets =>
    have none : targets.find? (fun t => !isStart (found.map Instruction.bare) t) = none := by
      rw [find?_eq_none]
      intro a listed
      simpa using isStart_bare.mpr (leads a listed)
    rw [Instruction.withPayload, none]
    rfl

theorem attach_bare (fits : ∀ entry ∈ program.positions 0, entry.2.FitsAt entry.1)
    (plain : program.IsPlain) (short : program.encode.length < 2 ^ 32) (is : i.op.format = format)
    (leads : i.LeadsIn program format) :
    attach program.encode.toArray (program.instructions.map Instruction.bare) i.bare = .ok i := by
  have is : i.bare.op.format = format := is
  unfold attach
  rw [is]
  have unchanged : format ≠ .f31t → i.bare = i := by
    intro other
    have none := leads.bare other
    rw [Instruction.bare, ← none]
  cases format
  case f10t | f20t | f30t | f21t | f22t =>
    have start : isStart _ i.bare.target = true := isStart_bare.mpr (leads.branch rfl)
    dsimp only
    rw [if_pos start]
    exact congrArg Except.ok (unchanged (by decide))
  case f31t =>
    obtain ⟨⟨p, item⟩, listed, isTable⟩ := leads.table rfl
    cases item with
    | instruction j => exact isTable.elim
    | table t =>
    obtain ⟨target, user, payload⟩ := isTable
    have stands := (StandsAt.whole program.encode).of_mem_positions listed
    have tableFits : t.Fits := fits _ listed
    have inside := stands.inside (by cases t <;> simp [Item.units, Table.units])
    have some : 2 ≤ t.units.length := by
      rw [Table.length_units]
      cases t <;> dsimp only <;> omega
    dsimp only [Item.units] at inside
    rw [size_toArray] at inside
    have target : i.bare.target.toNat = p := target
    dsimp only
    rw [target, size_toArray, if_neg (by omega)]
    obtain ⟨elements, branches⟩ := Table.readBy (i := i.bare) tableFits (plain _ _ listed) stands user
    have attached : (Except.ok { i.bare with payload := Option.some (t.payload i.addr) } :
        Outcome Instruction) = .ok i := by
      rw [← payload]
      rfl
    have rest := (attach_found i.bare (leads.switch _ payload)).trans attached
    split
    next code =>
      rwa [elements code, ok_bind]
    next code =>
      rwa [branches code, ok_bind]
  all_goals exact congrArg Except.ok (unchanged (by decide))

/-! ## What was decoded -/

theorem payload_of_scan (done : scan units p = .ok found) : ∀ i ∈ found, i.payload = none := by
  induction p using scan.induct units generalizing found with
  | case1 p inside size payload bad =>
    rw [scan, if_pos inside, payload] at done
    simp [bad, Outcome.failWith] at done
  | case2 p inside size payload good ih =>
    rw [scan, if_pos inside, payload] at done
    dsimp only at done
    rw [if_neg good] at done
    exact ih done
  | case3 p inside none overruns =>
    rw [scan, if_pos inside, none] at done
    simp [overruns, Outcome.failWith] at done
  | case4 p inside none fitsHere ih =>
    rw [scan, if_pos inside, none] at done
    dsimp only at done
    rw [if_neg fitsHere] at done
    obtain ⟨rest, scanned, done⟩ := Outcome.bind_ok.mp done
    cases done
    intro i listed
    rcases mem_cons.mp listed with same | behind
    · rw [same, decodeOne_payload]
    · exact ih scanned i behind
  | case5 p outside =>
    rw [scan, if_neg outside] at done
    cases done
    intro i listed
    cases listed

theorem isStart_iff : isStart found addr = true ↔ Starts found addr := by
  simp [isStart, Starts]

theorem leads_of_attach {all : List Instruction} {j : Instruction} (is : i.op.format = format)
    (bare : i.payload = none) (done : attach units all i = .ok j) :
    j.op.format = format ∧ (format.isBranch = true → Starts all j.target) ∧
      ∀ payload ∈ j.payload, payload.Leads all := by
  have unattached : ∀ payload ∈ i.payload, payload.Leads all := by simp [bare]
  have attached : ∀ read : Outcome Payload, (read >>= i.withPayload all) = .ok j →
      j.op.format = format ∧ ∀ payload ∈ j.payload, payload.Leads all := by
    intro read done
    obtain ⟨payload, -, done⟩ := Outcome.bind_ok.mp done
    cases payload with
    | branches keys targets =>
      simp only [Instruction.withPayload] at done
      split at done
      · cases done
      next absent =>
        cases done
        refine ⟨is, fun payload here => ?_⟩
        obtain rfl := Option.some.inj here
        intro a listed
        have start := find?_eq_none.mp absent a listed
        rw [← isStart_iff]
        simpa using start
    | elements width values =>
      cases done
      refine ⟨is, fun payload here => ?_⟩
      obtain rfl := Option.some.inj here
      trivial
  unfold attach at done
  rw [is] at done
  cases format
  case f10t | f20t | f30t | f21t | f22t =>
    dsimp only at done
    split at done
    next start =>
      cases done
      exact ⟨is, fun _ => isStart_iff.mp start, unattached⟩
    · cases done
  case f31t =>
    have noBranch : Format.f31t.isBranch = true → Starts all j.target :=
      fun branches => absurd branches Bool.false_ne_true
    dsimp only at done
    split at done
    · cases done
    · split at done
      all_goals
        obtain ⟨op, leads⟩ := attached _ done
        exact ⟨op, noBranch, leads⟩
  all_goals
    cases done
    exact ⟨is, fun branches => absurd branches Bool.false_ne_true, unattached⟩

theorem leads_of_decodeInstructions (done : decodeInstructions units = .ok found) :
    ∀ i ∈ found, (i.op.format.isBranch = true → Starts found i.target) ∧
      ∀ payload ∈ i.payload, payload.Leads found := by
  obtain ⟨all, scanned, attached⟩ := Outcome.bind_ok.mp done
  have extents := extents_of_mapM_attach attached
  have starts : ∀ a, Starts all a → Starts found a := by
    rintro a ⟨j, listed, rfl⟩
    have extent := mem_map_of_mem (f := Instruction.extent) listed
    rw [← extents] at extent
    obtain ⟨k, there, same⟩ := mem_map.mp extent
    exact ⟨k, there, congrArg Prod.fst same⟩
  intro i listed
  obtain ⟨j, from_, here⟩ := mem_of_mapM attached listed
  obtain ⟨op, branch, switch⟩ := leads_of_attach rfl (payload_of_scan scanned j from_) here
  refine ⟨fun isBranch => starts _ (branch (by rwa [op] at isBranch)), fun payload held => ?_⟩
  have leads := switch payload held
  cases payload with
  | branches keys targets => exact fun a target => starts a (leads a target)
  | elements width values => trivial

/-- The instructions of a laid out program are decoded from its units, with addresses, registers,
literals, indices, targets, keys and elements, as long as its array contents are for elements of
primitive types. Whatever is decoded from units that are not too many to add positions up in 32 bits
stands one behind the other, and its branches and switches lead to instructions that were decoded
with it. -/
theorem decodeInstructions_encode :
    (∀ program : Program, program.LaidOut → program.IsPlain →
      decodeInstructions program.encode.toArray = .ok program.instructions) ∧
    ∀ units found, units.size + 4 ≤ 2 ^ 31 → decodeInstructions units = .ok found →
      found.Pairwise Instruction.Precedes ∧
      ∀ i ∈ found, (i.op.encoding.isBranch = true → Starts found i.target) ∧
        ∀ payload ∈ i.payload, payload.Leads found := by
  constructor
  · intro program laid plain
    have scanned : scan program.encode.toArray 0 =
        .ok (program.instructions.map Instruction.bare) :=
      scan_eq laid.fits (StandsAt.whole _) (by simp)
    rw [decodeInstructions, scanned, ok_bind, mapM_map]
    have each : ∀ i ∈ program.instructions, (attach program.encode.toArray
        (program.instructions.map Instruction.bare) ∘ Instruction.bare) i = .ok (id i) := by
      intro i listed
      have leads := laid.leads i listed
      rw [Function.comp_apply,
        attach_bare laid.fits plain laid.short i.op.encoding_eq.symm leads, id]
    rw [mapM_of_ok each, map_id]
  · intro units found short done
    simp only [Opcode.encoding_eq]
    exact ⟨decodeInstructions_precedes (by change _ ≤ 2 ^ 32; omega) done,
      leads_of_decodeInstructions done⟩

/-- A switch and an array literal with their tables behind the code. -/
def tabled : Program := [
  .instruction { addr := 0, op := ⟨0x12⟩, regs := [0], lit := -1 },
  .instruction
    { addr := 1, op := ⟨0x2b⟩, regs := [0], target := 9, payload := some (.branches [-1] [8]) },
  .instruction
    { addr := 4, op := ⟨0x26⟩, regs := [1], target := 15,
      payload := some (.elements 2 [-2, 3, 5]) },
  .instruction { addr := 7, op := ⟨0x28⟩, target := 0 },
  .instruction { addr := 8, op := ⟨0x0e⟩ },
  .table (.packed (-1) [7]),
  .table (.array 2 [-2, 3, 5])]

theorem decodeInstructions_encode_tabled :
    (tabled.LaidOut ∧ tabled.IsPlain) ∧ tabled.encode = [0xf012, 0x002b, 8, 0, 0x0126, 11, 0, 0xf928, 0x000e,
        0x0100, 1, 0xffff, 0xffff, 7, 0, 0x0300, 2, 3, 0, 0xfffe, 3, 5] ∧
      decodeInstructions tabled.encode.toArray = .ok tabled.instructions ∧
      tabled.instructions.Pairwise Instruction.Precedes ∧
      ∀ i ∈ tabled.instructions, (i.op.encoding.isBranch = true → Starts tabled.instructions i.target) ∧
        ∀ payload ∈ i.payload, payload.Leads tabled.instructions := by
  have laid : tabled.LaidOut := by decide +kernel
  have plain : tabled.IsPlain := by
    intro p t listed
    simp only [tabled, Program.positions, mem_cons, Prod.mk.injEq, reduceCtorEq, and_false,
      Item.table.injEq, not_mem_nil, or_false, false_or] at listed
    obtain ⟨-, rfl⟩ | ⟨-, rfl⟩ := listed
    · trivial
    · simp [Table.IsPlain]
  have decoded := decodeInstructions_encode.1 tabled laid plain
  exact ⟨⟨laid, plain⟩, by decide +kernel, decoded,
    decodeInstructions_encode.2 _ _ (by decide +kernel) decoded⟩

/-- Array contents for elements of three bytes. -/
def tripled : Program := [
  .instruction
    { addr := 0, op := ⟨0x26⟩, regs := [0], target := 4, payload := some (.elements 3 [-2]) },
  .instruction { addr := 3, op := ⟨0x0e⟩ },
  .table (.array 3 [-2])]

/-- Such contents can be encoded, but decoding refuses them. -/
theorem not_decoded_tripled :
    tripled.LaidOut ∧ decodeInstructions tripled.encode.toArray ≠ .ok tripled.instructions := by
  have laid : tripled.LaidOut := by decide
  refine ⟨laid, ?_⟩
  have scanned := scan_eq laid.fits (StandsAt.whole tripled.encode) (by simp)
  rw [decodeInstructions, scanned, ok_bind]
  intro decoded
  obtain ⟨_, attached, -⟩ := Outcome.bind_ok.mp (mapM_cons.symm.trans decoded)
  have points : (⟨0x26⟩ : Opcode).format = .f31t := by
    rw [← Opcode.encoding_eq]
    decide
  unfold attach at attached
  dsimp only [Instruction.bare] at attached
  rw [points] at attached
  cases attached

end Dex

end DexLift
