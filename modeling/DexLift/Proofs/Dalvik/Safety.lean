import DexLift.Proofs.Dalvik.Encoding
import Mathlib.Tactic.Linarith

/-!
# Decoding code that nobody vouches for

The units of a code item can be anything. Instructions and the tables between them are
found by reading units inside the code only, which is stated by a decoder that checks
each place before it reads. What can leave the code is a payload that an instruction
points at: its address, and the size of array contents, are checked modulo two to the
32 only, and the head of array contents is not checked in full. Nothing else can, and
all other ends are a list of instructions or one of three causes.
-/

namespace DexLift

open List

namespace Outcome

variable {α β : Type} {causes : List Cause} {outside : Prop}

inductive Ends (causes : List Cause) (outside : Prop) : Outcome α → Prop
  | ok (a : α) : Ends causes outside (.ok a)
  | failed (f : Failure) (listed : f.cause ∈ causes) : Ends causes outside (.error (.failed f))
  | crashed (reason : outside) : Ends causes outside (.error .crashed)

theorem ends_failWith {cause : Cause} (listed : cause ∈ causes) (detail : Text) :
    Ends causes outside (failWith cause detail : Outcome α) :=
  .failed _ listed

theorem Ends.bind {first : Outcome α} {next : α → Outcome β} (ends : first.Ends causes outside)
    (more : ∀ a, first = .ok a → (next a).Ends causes outside) :
    (first >>= next).Ends causes outside := by
  cases ends with
  | ok a => exact more a rfl
  | failed f listed => exact .failed f listed
  | crashed reason => exact .crashed reason

theorem Ends.mono {others : List Cause} {reason : Prop} {outcome : Outcome α}
    (ends : outcome.Ends causes outside) (more : causes ⊆ others) (implies : outside → reason) :
    outcome.Ends others reason := by
  cases ends with
  | ok a => exact .ok a
  | failed f listed => exact .failed f (more listed)
  | crashed here => exact .crashed (implies here)

variable {each : α → Outcome β} {values : List α}

theorem ends_mapM {reason : α → Prop} (ends : ∀ a ∈ values, (each a).Ends causes (reason a)) :
    (values.mapM each).Ends causes (∃ a ∈ values, reason a) := by
  induction values with
  | nil => exact .ok []
  | cons a values ih =>
    obtain ⟨endsFirst, ends⟩ := forall_mem_cons.mp ends
    have first : (each a).Ends causes (∃ b ∈ a :: values, reason b) :=
      endsFirst.mono (fun _ listed => listed) fun here => ⟨a, mem_cons_self, here⟩
    have rest : (values.mapM each).Ends causes (∃ b ∈ a :: values, reason b) :=
      (ih ends).mono (fun _ listed => listed)
        fun ⟨b, member, here⟩ => ⟨b, mem_cons_of_mem a member, here⟩
    rw [mapM_cons]
    exact first.bind fun b _ => rest.bind fun bs _ => .ok (b :: bs)

theorem ends_mapM_inside (ends : ∀ a ∈ values, (each a).Ends causes False) :
    (values.mapM each).Ends causes outside :=
  (ends_mapM ends).mono (fun _ listed => listed) fun ⟨_, _, never⟩ => never.elim

end Outcome

namespace Dex

open Outcome (Ends ok_bind ends_failWith)

/-! ## Reading inside the code -/

section Inside

variable {count p size : Nat} {causes : List Cause} {outside : Prop} {i : Instruction} {op : Opcode}

variable {units : Array UInt16} {pc : Nat}

def payloadSizeInside? (units : Array UInt16) (pc : Nat) : Outcome (Option Nat) := do
  let mark ← unitAt units pc
  if mark = packedMark then
    if pc + 2 > units.size then return some 0
    else return some ((← unitAt units (pc + 1)).toNat * 2 + 4)
  else if mark = sparseMark then
    if pc + 2 > units.size then return some 0
    else return some ((← unitAt units (pc + 1)).toNat * 4 + 2)
  else if mark = arrayMark then
    if pc + 4 > units.size then return some 0
    else
      let width := (← unitAt units (pc + 1)).toNat
      let count := (← pairAt units (pc + 2)).toNat
      return some ((width * count + 1) % 0x100000000 / 2 + 4)
  else return none

def opcodeInside (units : Array UInt16) (pc : Nat) : Outcome Opcode := do
  return ⟨(← unitAt units pc).toUInt8⟩

def scanInside (units : Array UInt16) (pc : Nat) : Outcome (List Instruction) := do
  if pc < units.size then
    match ← payloadSizeInside? units pc with
    | some size =>
      if size = 0 ∨ pc + size > units.size then
        Outcome.failWith .instructionPayload ("payload at " ++ Text.hex pc 4)
      else scanInside units (pc + size)
    | none =>
      let op ← opcodeInside units pc
      if pc + op.format.units > units.size then
        Outcome.failWith .instructionStream
          (op.name ++ " at " ++ Text.hex pc 4 ++ " overruns code")
      else
        let words ← (range op.format.units).mapM fun k => unitAt units (pc + k)
        let rest ← scanInside units (pc + op.format.units)
        return decodeOne (words.getD · 0) (UInt32.ofNat pc) op :: rest
  else return []
termination_by units.size - pc
decreasing_by
  · omega
  · have wide := op.format.units_pos
    omega

def decodeInside (units : Array UInt16) : Outcome (List Instruction) := do
  let all ← scanInside units 0
  all.mapM (attach units all)

theorem unitAt_of_lt (inside : pc < units.size) : unitAt units pc = .ok (units.getD pc 0) := by
  rw [unitAt, Array.getElem?_eq_getElem inside, Array.getD, dif_pos inside]
  rfl

theorem unitAt_of_le (outside : units.size ≤ pc) : unitAt units pc = .error .crashed := by
  rw [unitAt, Array.getElem?_eq_none outside]
  rfl

theorem pairAt_of_lt (inside : pc + 1 < units.size) :
    pairAt units pc = .ok (pair (units.getD pc 0) (units.getD (pc + 1) 0)) := by
  rw [pairAt, unitAt_of_lt (by omega), ok_bind, unitAt_of_lt inside, ok_bind]
  rfl

theorem pairAt_of_le (outside : units.size ≤ pc + 1) : pairAt units pc = .error .crashed := by
  unfold pairAt
  rcases Nat.lt_or_ge pc units.size with inside | beyond
  · rw [unitAt_of_lt inside, ok_bind, unitAt_of_le outside]
    rfl
  · rw [unitAt_of_le beyond]
    rfl

theorem payloadSizeInside?_eq (inside : pc < units.size) :
    payloadSizeInside? units pc = .ok (payloadSize? units pc) := by
  have mark := unitAt_of_lt inside
  unfold payloadSizeInside? payloadSize?
  generalize units.getD pc 0 = m at mark ⊢
  rw [mark, ok_bind]
  by_cases packed : m = packedMark
  · rw [if_pos packed, if_pos packed]
    by_cases cut : pc + 2 > units.size
    · rw [if_pos cut, if_pos cut]
      rfl
    · rw [if_neg cut, if_neg cut, unitAt_of_lt (by omega)]
      rfl
  rw [if_neg packed, if_neg packed]
  by_cases sparse : m = sparseMark
  · rw [if_pos sparse, if_pos sparse]
    by_cases cut : pc + 2 > units.size
    · rw [if_pos cut, if_pos cut]
      rfl
    · rw [if_neg cut, if_neg cut, unitAt_of_lt (by omega)]
      rfl
  rw [if_neg sparse, if_neg sparse]
  by_cases array : m = arrayMark
  · rw [if_pos array, if_pos array]
    dsimp only
    by_cases cut : pc + 4 > units.size
    · rw [if_pos cut, if_pos cut]
      rfl
    · rw [if_neg cut, if_neg cut, unitAt_of_lt (by omega), pairAt_of_lt (by omega)]
      rfl
  rw [if_neg array, if_neg array]
  rfl

theorem mapM_unitAt (inside : pc + count ≤ units.size) :
    ((range count).mapM fun k => unitAt units (pc + k)) =
      .ok ((range count).map fun k => units.getD (pc + k) 0) :=
  Outcome.mapM_of_ok fun _ member =>
    unitAt_of_lt (lt_of_lt_of_le (Nat.add_lt_add_left (mem_range.mp member) pc) inside)

theorem opcodeInside_eq (inside : pc < units.size) :
    opcodeInside units pc = .ok (opcodeAt units pc) := by
  rw [opcodeInside, unitAt_of_lt inside]
  rfl

theorem scan_eq_scanInside (units : Array UInt16) (pc : Nat) :
    scan units pc = scanInside units pc := by
  induction pc using scan.induct units with
  | case1 pc inside size payload bad =>
    rw [scan, scanInside, if_pos inside, if_pos inside, payloadSizeInside?_eq inside, payload,
      ok_bind]
    dsimp only
    rw [if_pos bad, if_pos bad]
  | case2 pc inside size payload good ih =>
    rw [scan, scanInside, if_pos inside, if_pos inside, payloadSizeInside?_eq inside, payload,
      ok_bind]
    dsimp only
    rw [if_neg good, if_neg good, ih]
  | case3 pc inside none overruns =>
    rw [scan, scanInside, if_pos inside, if_pos inside, payloadSizeInside?_eq inside, none, ok_bind]
    dsimp only
    rw [opcodeInside_eq inside, ok_bind, if_pos overruns, if_pos overruns]
  | case4 pc inside none fits ih =>
    rw [scan, scanInside, if_pos inside, if_pos inside, payloadSizeInside?_eq inside, none, ok_bind]
    dsimp only
    rw [opcodeInside_eq inside, ok_bind, if_neg fits, if_neg fits, mapM_unitAt (by omega), ok_bind,
      ih]
    have words : ∀ k < (opcodeAt units pc).format.units, units.getD (pc + k) 0 =
        ((range (opcodeAt units pc).format.units).map fun k => units.getD (pc + k) 0).getD k 0 := by
      intro k own
      rw [getD_eq_getElem?_getD, getElem?_map, getElem?_range own]
      rfl
    rw [decodeOne_congr words]
  | case5 pc outside =>
    rw [scan, scanInside, if_neg outside, if_neg outside]
    rfl

/-- All units of instructions and of the tables passed over are read inside the code; only reading
the tables that instructions point at can leave it. -/
theorem decodeInstructions_eq_decodeInside (units : Array UInt16) :
    decodeInstructions units = decodeInside units := by
  rw [decodeInstructions, decodeInside, scan_eq_scanInside]

/-! ## Tables that instructions point at -/

def elementWidth (units : Array UInt16) (p : Nat) : Nat := (units.getD (p + 1) 0).toNat

def elementCount (units : Array UInt16) (p : Nat) : Nat :=
  (pair (units.getD (p + 2) 0) (units.getD (p + 3) 0)).toNat

def contentBytes (units : Array UInt16) (p : Nat) : Nat :=
  elementWidth units p * elementCount units p

/-- The ways in which the payload of an instruction is read outside the code. -/
inductive Instruction.Overreaches (units : Array UInt16) (i : Instruction) : Prop
  /-- The address is so large that its check comes round to zero. -/
  | address (points : i.op.format = .f31t) (wraps : 2 ^ 32 ≤ i.target.toNat + 2)
    (passes : (i.target.toNat + 2) % 2 ^ 32 ≤ units.size)
  /-- The mark and the width of array contents are inside the code, their count is not. -/
  | head (points : i.op.code = 0x26) (marked : units.getD i.target.toNat 0 = arrayMark)
    (begins : i.target.toNat + 2 ≤ units.size) (cut : units.size < i.target.toNat + 4)
  /-- Array contents have so many bytes that the check of their end comes round to less. -/
  | contents (points : i.op.code = 0x26) (marked : units.getD i.target.toNat 0 = arrayMark)
    (width : elementWidth units i.target.toNat ∈ [1, 2, 4, 8])
    (wraps : 2 ^ 32 ≤ contentBytes units i.target.toNat + 1)
    (passes : i.target.toNat + 4 + (contentBytes units i.target.toNat + 1) % 2 ^ 32 / 2 ≤
      units.size)
    (beyond : units.size < i.target.toNat + 4 + (contentBytes units i.target.toNat + 1) / 2)

theorem payloadSize?_packed (marked : units.getD p 0 = packedMark) (begins : p + 2 ≤ units.size) :
    payloadSize? units p = some ((units.getD (p + 1) 0).toNat * 2 + 4) := by
  rw [payloadSize?, if_pos marked, if_neg (by omega)]

theorem payloadSize?_sparse (marked : units.getD p 0 = sparseMark) (begins : p + 2 ≤ units.size) :
    payloadSize? units p = some ((units.getD (p + 1) 0).toNat * 4 + 2) := by
  rw [payloadSize?, marked, if_neg (by decide), if_pos rfl, if_neg (by omega)]

theorem payloadSize?_array (marked : units.getD p 0 = arrayMark) :
    payloadSize? units p = some (if p + 4 > units.size then 0 else
      (contentBytes units p + 1) % 2 ^ 32 / 2 + 4) := by
  rw [payloadSize?, marked, if_neg (by decide), if_neg (by decide), if_pos rfl]
  rfl

theorem ends_pairs {β : Type} {place : Nat → Nat} (next : UInt32 → β)
    (inside : ∀ k < count, place k + 1 < units.size) :
    ((range count).mapM fun k => do return next (← pairAt units (place k))).Ends causes
      outside := by
  apply Outcome.ends_mapM_inside
  intro k member
  rw [pairAt_of_lt (inside k (mem_range.mp member))]
  exact .ok _

theorem ends_readBranches (i : Instruction) (packed : Bool) (p : Nat) :
    (readBranches units i packed p).Ends [.instructionPayload] (units.size < p + 2) := by
  unfold readBranches
  dsimp only
  by_cases outside : units.size ≤ p
  · rw [unitAt_of_le outside]
    exact .crashed (by omega)
  rw [unitAt_of_lt (by omega), ok_bind]
  by_cases bad : units.getD p 0 ≠ (if packed then packedMark else sparseMark) ∨
      p + (payloadSize? units p).getD 0 > units.size
  · rw [if_pos bad]
    exact ends_failWith (.head _) _
  rw [if_neg bad]
  by_cases cut : units.size ≤ p + 1
  · rw [unitAt_of_le cut]
    exact .crashed (by omega)
  obtain ⟨marked, fits⟩ := not_or.mp bad
  replace marked := not_ne_iff.mp marked
  rw [unitAt_of_lt (by omega), ok_bind]
  cases packed with
  | true =>
    rw [payloadSize?_packed marked (by omega), Option.getD_some] at fits
    rw [if_pos rfl, pairAt_of_lt (by omega), ok_bind]
    exact (ends_pairs _ fun k few => by omega).bind fun targets _ => .ok _
  | false =>
    rw [payloadSize?_sparse marked (by omega), Option.getD_some] at fits
    rw [if_neg (by decide)]
    exact (ends_pairs _ fun k few => by omega).bind fun keys _ =>
      (ends_pairs _ fun k few => by omega).bind fun targets _ => .ok _

theorem ends_elements (inside : p + 4 + (contentBytes units p + 1) / 2 ≤ units.size) :
    ((range (elementCount units p)).mapM fun k => do
      let bytes ← (range (elementWidth units p)).mapM fun b =>
        elementByte units (p + 4) (k * elementWidth units p + b)
      return signExtended (elementWidth units p) bytes).Ends causes outside := by
  apply Outcome.ends_mapM_inside
  intro k member
  have bytes : ((range (elementWidth units p)).mapM fun b =>
      elementByte units (p + 4) (k * elementWidth units p + b)).Ends causes False := by
    apply Outcome.ends_mapM_inside
    intro b own
    have before : k * elementWidth units p + b < contentBytes units p := by
      have := mem_range.mp member
      have := mem_range.mp own
      unfold contentBytes
      nlinarith
    rw [elementByte, unitAt_of_lt (by omega)]
    exact .ok _
  exact bytes.bind fun _ _ => .ok _

/-- Array contents whose first two units are inside the code are read or refused, unless their count
or their end lies outside. -/
theorem ends_readElements (points : i.op.code = 0x26) :
    (readElements units i i.target.toNat).Ends [.instructionPayload]
      (units.size < i.target.toNat + 2 ∨ i.Overreaches units) := by
  unfold readElements
  dsimp only
  generalize same : i.target.toNat = p
  by_cases outside : units.size ≤ p
  · rw [unitAt_of_le outside]
    exact .crashed (by omega)
  rw [unitAt_of_lt (by omega), ok_bind]
  by_cases bad : units.getD p 0 ≠ arrayMark ∨ p + (payloadSize? units p).getD 0 > units.size
  · rw [if_pos bad]
    exact ends_failWith (.head _) _
  rw [if_neg bad]
  obtain ⟨marked, fits⟩ := not_or.mp bad
  replace marked := not_ne_iff.mp marked
  rw [payloadSize?_array marked, Option.getD_some] at fits
  by_cases short : units.size ≤ p + 1
  · rw [unitAt_of_le short]
    exact .crashed (by omega)
  rw [unitAt_of_lt (by omega), ok_bind]
  subst same
  by_cases cut : i.target.toNat + 4 > units.size
  · rw [pairAt_of_le (by omega)]
    exact .crashed (.inr (.head points marked (by omega) (by omega)))
  rw [if_neg cut] at fits
  rw [pairAt_of_lt (by omega), ok_bind]
  change Ends _ _ (let width := elementWidth units i.target.toNat
    if width ≠ 1 ∧ width ≠ 2 ∧ width ≠ 4 ∧ width ≠ 8 then _
    else if i.target.toNat + 4 + (contentBytes units i.target.toNat + 1) / 2 > units.size then _
    else _)
  dsimp only
  split
  next => exact ends_failWith (.head _) _
  next usual =>
    have width : elementWidth units i.target.toNat ∈ [1, 2, 4, 8] := by
      simp only [mem_cons, not_mem_nil, or_false]
      omega
    split
    next beyond =>
      refine .crashed (.inr (.contents points marked width ?_ (by omega) beyond))
      -- A number of bytes that does not come round was checked in full.
      by_contra small
      rw [Nat.mod_eq_of_lt (by omega)] at fits
      omega
    next within =>
      exact (ends_elements (Nat.le_of_not_gt within)).bind fun values _ => .ok _

def decodingCauses : List Cause := [.instructionStream, .branchTarget, .instructionPayload]

theorem ends_of_payload {all : List Instruction} {read : Outcome Payload}
    (ends : read.Ends decodingCauses (i.Overreaches units)) :
    (read >>= i.withPayload all).Ends decodingCauses (i.Overreaches units) := by
  refine ends.bind fun payload _ => ?_
  cases payload with
  | branches keys targets =>
    unfold Instruction.withPayload
    dsimp only
    split
    · exact ends_failWith (by decide) _
    · exact .ok _
  | elements width values => exact .ok _

/-- A branch leads to an instruction or is refused, a payload is attached or refused, unless it
overreaches. -/
theorem ends_attach (all : List Instruction) (i : Instruction) :
    (attach units all i).Ends decodingCauses (i.Overreaches units) := by
  have branch : (if isStart all i.target then return i else strayBranch i i.target :
      Outcome Instruction).Ends decodingCauses (i.Overreaches units) := by
    split
    · exact .ok _
    · exact ends_failWith (by decide) _
  unfold attach
  split
  · exact branch
  · exact branch
  · exact branch
  · exact branch
  · exact branch
  next points =>
    by_cases beyond : (i.target.toNat + 2) % 0x100000000 > units.size
    · rw [if_pos beyond]
      exact ends_failWith (by decide) _
    rw [if_neg beyond]
    have wrapped : units.size < i.target.toNat + 2 → i.Overreaches units := by
      intro outside
      refine .address points ?_ (Nat.le_of_not_gt beyond)
      by_contra small
      rw [Nat.mod_eq_of_lt (by omega)] at beyond
      omega
    have listed : [Cause.instructionPayload] ⊆ decodingCauses := by decide
    split
    next array =>
      apply ends_of_payload
      exact (ends_readElements array).mono listed fun reason => reason.elim wrapped id
    next =>
      apply ends_of_payload
      exact (ends_readBranches i _ _).mono listed wrapped
  next => exact .ok _

theorem format_of_code (points : op.code = 0x26) : op.format = .f31t := by
  obtain ⟨code⟩ := op
  obtain rfl : code = 0x26 := points
  decide +kernel

theorem attach_of_overreaches (short : units.size + 2 ≤ 2 ^ 32) (all : List Instruction)
    (overreaches : i.Overreaches units) : attach units all i = .error .crashed := by
  have crash : i.op.format = .f31t → (i.target.toNat + 2) % 2 ^ 32 ≤ units.size →
      (i.op.code = 0x26 → readElements units i i.target.toNat = .error .crashed) →
      (i.op.code ≠ 0x26 → readBranches units i (i.op.code == 0x2b) i.target.toNat =
        .error .crashed) → attach units all i = .error .crashed := by
    intro points passes elements branches
    unfold attach
    rw [points]
    dsimp only
    rw [if_neg (show ¬ (i.target.toNat + 2) % 0x100000000 > units.size from Nat.not_lt_of_le passes)]
    split
    next array =>
      rw [elements array]
      rfl
    next other =>
      rw [branches other]
      rfl
  cases overreaches with
  | address points wraps passes =>
    have outside : unitAt units i.target.toNat = .error .crashed := unitAt_of_le (by omega)
    refine crash points passes (fun _ => ?_) fun _ => ?_
    · rw [readElements, outside]
      rfl
    · rw [readBranches, outside]
      rfl
  | head points marked begins cut =>
    refine crash (format_of_code points) (Nat.le_trans (Nat.mod_le _ _) begins) (fun _ => ?_)
      fun other => (other points).elim
    have size : (payloadSize? units i.target.toNat).getD 0 = 0 := by
      rw [payloadSize?_array marked, if_pos (by omega)]
      rfl
    rw [readElements, unitAt_of_lt (by omega), ok_bind]
    dsimp only
    rw [marked, size, if_neg (by simp; omega), unitAt_of_lt (by omega), ok_bind,
      pairAt_of_le (by omega)]
    rfl
  | contents points marked width _ passes beyond =>
    refine crash (format_of_code points) (Nat.le_trans (Nat.mod_le _ _) (by omega)) (fun _ => ?_)
      fun other => (other points).elim
    have size : (payloadSize? units i.target.toNat).getD 0 =
        (contentBytes units i.target.toNat + 1) % 2 ^ 32 / 2 + 4 := by
      rw [payloadSize?_array marked, if_neg (by omega)]
      rfl
    rw [readElements, unitAt_of_lt (by omega), ok_bind]
    dsimp only
    have usual : ¬ (elementWidth units i.target.toNat ≠ 1 ∧ elementWidth units i.target.toNat ≠ 2 ∧
        elementWidth units i.target.toNat ≠ 4 ∧ elementWidth units i.target.toNat ≠ 8) := by
      simp only [mem_cons, not_mem_nil, or_false] at width
      omega
    rw [marked, size, if_neg (by simp; omega), unitAt_of_lt (by omega), ok_bind,
      pairAt_of_lt (by omega), ok_bind]
    exact (if_neg usual).trans (if_pos beyond)

theorem ends_scan (pc : Nat) : (scan units pc).Ends decodingCauses False := by
  induction pc using scan.induct units with
  | case1 pc inside size payload bad =>
    rw [scan, if_pos inside, payload]
    dsimp only
    rw [if_pos bad]
    exact ends_failWith (by decide) _
  | case2 pc inside size payload good ih =>
    rw [scan, if_pos inside, payload]
    dsimp only
    rwa [if_neg good]
  | case3 pc inside none overruns =>
    rw [scan, if_pos inside, none]
    dsimp only
    rw [if_pos overruns]
    exact ends_failWith (by decide) _
  | case4 pc inside none fits ih =>
    rw [scan, if_pos inside, none]
    dsimp only
    rw [if_neg fits]
    exact ih.bind fun rest _ => .ok _
  | case5 pc outside =>
    rw [scan, if_neg outside]
    exact .ok []

/-- Decoding gives instructions or fails with one of three causes, unless a payload overreaches. -/
theorem ends_decodeInstructions (units : Array UInt16) :
    (decodeInstructions units).Ends decodingCauses
      (∃ all, scan units 0 = .ok all ∧ ∃ i ∈ all, i.Overreaches units) := by
  unfold decodeInstructions
  refine ((ends_scan 0).mono (fun _ listed => listed) False.elim).bind fun all scanned => ?_
  have each : ∀ i ∈ all, (attach units all i).Ends decodingCauses (i.Overreaches units) :=
    fun i _ => ends_attach all i
  have ends := Outcome.ends_mapM each
  exact ends.mono (fun _ listed => listed) fun reason => ⟨all, scanned, reason⟩

/-! ## Checks in 32 bits -/

/-- The number of units of the table that begins at `pc`, by the count in its head. -/
def tableSize (units : Array UInt16) (pc : Nat) : Nat :=
  if units.getD pc 0 = packedMark then (units.getD (pc + 1) 0).toNat * 2 + 4
  else if units.getD pc 0 = sparseMark then (units.getD (pc + 1) 0).toNat * 4 + 2
  else (contentBytes units pc + 1) / 2 + 4

/-- Array contents have so many bytes that their number comes round in 32 bits. -/
def Wraps (units : Array UInt16) (pc : Nat) : Prop :=
  units.getD pc 0 = arrayMark ∧ 2 ^ 32 ≤ contentBytes units pc + 1

theorem payloadSize?_cases (here : payloadSize? units pc = some size) :
    size = 0 ∨ (units.getD pc 0 = packedMark ∧ size = (units.getD (pc + 1) 0).toNat * 2 + 4) ∨
      (units.getD pc 0 = sparseMark ∧ size = (units.getD (pc + 1) 0).toNat * 4 + 2) ∨
      (units.getD pc 0 = arrayMark ∧ size = (contentBytes units pc + 1) % 2 ^ 32 / 2 + 4) := by
  have chosen : ∀ {cut : Prop} [Decidable cut] {whole : Nat},
      some (if cut then 0 else whole) = some size → size = 0 ∨ size = whole := by grind
  by_cases packed : units.getD pc 0 = packedMark
  · rw [payloadSize?, if_pos packed] at here
    exact (chosen here).imp_right fun is => .inl ⟨packed, is⟩
  by_cases sparse : units.getD pc 0 = sparseMark
  · rw [payloadSize?, if_neg packed, if_pos sparse] at here
    exact (chosen here).imp_right fun is => .inr (.inl ⟨sparse, is⟩)
  by_cases array : units.getD pc 0 = arrayMark
  · rw [payloadSize?_array array] at here
    exact (chosen here).imp_right fun is => .inr (.inr ⟨array, is⟩)
  · rw [payloadSize?, if_neg packed, if_neg sparse, if_neg array] at here
    cases here

/-- A table whose head is inside the code has the size that its count says, unless that comes
round. -/
theorem tableSize_of_payloadSize? (here : payloadSize? units pc = some size) (whole : size ≠ 0) :
    tableSize units pc = size ∨ Wraps units pc := by
  unfold tableSize
  rcases payloadSize?_cases here with none | ⟨packed, is⟩ | ⟨sparse, is⟩ | ⟨array, is⟩
  · exact (whole none).elim
  · rw [if_pos packed]
    exact .inl is.symm
  · rw [sparse, if_neg (by decide), if_pos rfl]
    exact .inl is.symm
  · rw [array, if_neg (by decide), if_neg (by decide)]
    by_cases small : contentBytes units pc + 1 < 2 ^ 32
    · rw [is, Nat.mod_eq_of_lt small]
      exact .inl rfl
    · exact .inr ⟨array, Nat.le_of_not_lt small⟩

theorem end_lt_of_payloadSize? (short : units.size + 4 ≤ 2 ^ 31) (inside : pc < units.size)
    (here : payloadSize? units pc = some size) : pc + size < 2 ^ 32 := by
  have count := (units.getD (pc + 1) 0).toNat_lt
  rcases payloadSize?_cases here with is | ⟨-, is⟩ | ⟨-, is⟩ | ⟨-, is⟩ <;> omega

/-! ## All ends of decoding -/

/-- Whatever the units are, instructions and the tables between them are read inside the code.
Decoding gives instructions or fails with one of three causes, unless the payload of an instruction
overreaches, and then reading it leaves the code. Where tables are passed over, no end is too large
for 32 bits, and what is taken for the end is the end, unless the number of bytes of array contents
comes round. Positions in so many units are added up without coming round in 32 bits, too. -/
theorem decodeInstructions_stays_inside (units : Array UInt16) (short : units.size + 4 ≤ 2 ^ 31) :
    decodeInstructions units = decodeInside units ∧
    (decodeInstructions units).Ends decodingCauses
      (∃ all, scan units 0 = .ok all ∧ ∃ i ∈ all, i.Overreaches units) ∧
    (∀ all i, attach units all i = .error .crashed ↔ i.Overreaches units) ∧
    ∀ pc < units.size, ∀ size, payloadSize? units pc = some size →
      pc + size < 2 ^ 32 ∧ (size ≠ 0 → tableSize units pc = size ∨ Wraps units pc) := by
  refine ⟨decodeInstructions_eq_decodeInside units, ends_decodeInstructions units, ?_, ?_⟩
  · intro all i
    constructor
    · intro crashed
      have ends : (attach units all i).Ends decodingCauses (i.Overreaches units) :=
        ends_attach all i
      rw [crashed] at ends
      cases ends with
      | crashed reason => exact reason
    · exact attach_of_overreaches (by omega) all
  · intro pc inside size here
    exact ⟨end_lt_of_payloadSize? short inside here, tableSize_of_payloadSize? here⟩

/-- Four units are taken for contents of four gigabytes. -/
theorem decodeInstructions_stays_inside_wrapping : Wraps #[0x0300, 4, 0, 0x4000] 0 :=
  ((((decodeInstructions_stays_inside #[0x0300, 4, 0, 0x4000] (by decide)).2.2.2 0 (by decide) 4
    (by decide)).2 (by decide)).resolve_left (by decide))

theorem target_decodeOne {w : Nat → UInt16} {pc : UInt32} (points : op.format = .f31t) :
    (decodeOne w pc op).target = pc + pair (w 1) (w 2) := by
  unfold decodeOne
  rw [points]

/-- The address of a payload comes round to the beginning of the code, and reading leaves it. -/
theorem decodeInstructions_overreaching :
    decodeInstructions #[0x2b, 0xfffe, 0xffff] = .error .crashed := by
  let units : Array UInt16 := #[0x2b, 0xfffe, 0xffff]
  let i := decodeOne (fun k => units.getD (0 + k) 0) (UInt32.ofNat 0) (opcodeAt units 0)
  have points : (opcodeAt units 0).format = .f31t := by decide +kernel
  have op : i.op = opcodeAt units 0 := decodeOne_op _ _ _
  have target : i.target = 0 + pair 0xfffe 0xffff := target_decodeOne points
  have scanned : scan units 0 = .ok [i] := by
    have plain : payloadSize? units 0 = none := by decide
    rw [scan, if_pos (by decide), plain]
    dsimp only
    rw [points, if_neg (by decide), scan, if_neg (by decide)]
    rfl
  have overreaches : i.Overreaches units :=
    .address (op ▸ points) (target ▸ by decide) (target ▸ by decide)
  have left := attach_of_overreaches (by decide) [i] overreaches
  change decodeInstructions units = _
  rw [decodeInstructions, scanned, ok_bind, mapM_cons, left]
  rfl

end Inside

end Dex

end DexLift
