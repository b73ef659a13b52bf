import DexLift.Dex.ClassData
import Mathlib.Data.List.Forall2
import Mathlib.Data.List.Pairwise

/-!
# Addresses of decoded instructions

Instructions are decoded from the units of a code item from front to back, and a
code item has fewer than two to the 32 units. So each instruction of a code item
that was read ends before the next one begins, and their addresses ascend.
-/

namespace DexLift.Dex

open List Instruction

variable {cursor : Cursor} {i j : Instruction} {units : Array UInt16} {found all : List Instruction}
  {offset : UInt32} {code : Code}

theorem Read.bind_ok {α β : Type} {first : Read α} {next : α → Read β} {b : β}
    (done : ((first >>= next) cursor).1 = .ok b) :
    ∃ a middle, first cursor = (.ok a, middle) ∧ (next a middle).1 = .ok b := by
  have unfolded : (first >>= next) cursor =
      match first cursor with
      | (.ok a, middle) => next a middle
      | (.error stop, middle) => (.error stop, middle) := by
    show (ExceptT.bindCont next (first cursor).1) (first cursor).2 = _
    rcases first cursor with ⟨_ | _, _⟩ <;> rfl
  rw [unfolded] at done
  split at done
  next a middle here => exact ⟨a, middle, here, done⟩
  · cases done

theorem Read.length_times {α : Type} {read : Read α} {count : Nat} {xs : List α}
    (done : (Read.times read count cursor).1 = .ok xs) : xs.length = count := by
  induction count generalizing cursor xs with
  | zero =>
    cases done
    rfl
  | succ count ih =>
    obtain ⟨head, middle, -, done⟩ := Read.bind_ok done
    obtain ⟨rest, last, here, done⟩ := Read.bind_ok done
    cases done
    rw [length_cons, ih (congrArg Prod.fst here)]

@[simp] theorem decodeOne_addr (w : Nat → UInt16) (pc : UInt32) (op : Opcode) :
    (decodeOne w pc op).addr = pc := by
  unfold decodeOne
  dsimp only
  split <;> rfl

@[simp] theorem decodeOne_size (w : Nat → UInt16) (pc : UInt32) (op : Opcode) :
    (decodeOne w pc op).size = op.format.units := by
  unfold decodeOne size
  dsimp only
  split <;> rfl

/-- Where an instruction begins and how wide it is. -/
def Instruction.extent (i : Instruction) : UInt32 × Nat := (i.addr, i.size)

/-- An extent ends before another begins. -/
def Apart (first second : UInt32 × Nat) : Prop := first.1.toNat + first.2 ≤ second.1.toNat

/-- An instruction ends before another begins. -/
def Instruction.Precedes (i j : Instruction) : Prop := Apart i.extent j.extent

theorem Instruction.precedes_iff : i.Precedes j ↔ i.addr.toNat + i.size ≤ j.addr.toNat := by
  simp only [Precedes, Apart, extent]

theorem Instruction.Precedes.addr_lt (precedes : i.Precedes j) : i.addr < j.addr := by
  have wide : 0 < i.size := i.op.format.units_pos
  have ends := precedes_iff.mp precedes
  rw [UInt32.lt_iff_toNat_lt]
  omega

theorem scan_precedes (fits : units.size ≤ UInt32.size) {pc : Nat}
    (done : scan units pc = .ok found) :
    found.Pairwise Precedes ∧ ∀ i ∈ found, pc ≤ i.addr.toNat := by
  induction pc using scan.induct units generalizing found with
  | case1 pc inside size payload bad =>
    rw [scan, if_pos inside, payload] at done
    simp [bad, Outcome.failWith] at done
  | case2 pc inside size payload good ih =>
    rw [scan, if_pos inside, payload] at done
    dsimp only at done
    rw [if_neg good] at done
    obtain ⟨sorted, later⟩ := ih done
    exact ⟨sorted, fun i member => Nat.le_trans (Nat.le_add_right _ _) (later i member)⟩
  | case3 pc inside none overruns =>
    rw [scan, if_pos inside, none] at done
    simp [overruns, Outcome.failWith] at done
  | case4 pc inside none fitsHere ih =>
    rw [scan, if_pos inside, none] at done
    dsimp only at done
    rw [if_neg fitsHere] at done
    cases rest : scan units (pc + (opcodeAt units pc).format.units) with
    | error stop =>
      rw [rest] at done
      cases done
    | ok others =>
      rw [rest] at done
      cases done
      obtain ⟨sorted, later⟩ := ih rest
      have here : (UInt32.ofNat pc).toNat = pc :=
        UInt32.toNat_ofNat_of_lt' (Nat.lt_of_lt_of_le inside fits)
      have wide := (opcodeAt units pc).format.units_pos
      refine ⟨pairwise_cons.mpr ⟨?_, sorted⟩, ?_⟩
      · intro i member
        rw [precedes_iff, decodeOne_addr, decodeOne_size, here]
        exact later i member
      · intro i member
        rcases mem_cons.mp member with same | behind
        · exact Nat.le_of_eq (by rw [same, decodeOne_addr, here])
        · have := later i behind
          omega
  | case5 pc outside =>
    rw [scan, if_neg outside] at done
    cases done
    exact ⟨.nil, by simp⟩

theorem extent_of_payload {read : Outcome Payload}
    (done : (read >>= i.withPayload all) = .ok j) : j.extent = i.extent := by
  cases read with
  | error stop => cases done
  | ok payload =>
    cases payload with
    | branches keys targets =>
      simp only [bind, Except.bind, withPayload] at done
      split at done
      · cases done
      · cases done
        rfl
    | elements width values =>
      cases done
      rfl

theorem attach_extent (done : attach units all i = .ok j) : j.extent = i.extent := by
  have branch : (if isStart all i.target then (pure i : Outcome Instruction)
      else strayBranch i i.target) = .ok j → j.extent = i.extent := by
    intro done
    split at done
    · cases done
      rfl
    · cases done
  unfold attach at done
  split at done
  · exact branch done
  · exact branch done
  · exact branch done
  · exact branch done
  · exact branch done
  · split at done
    · cases done
    · dsimp only at done
      split at done
      · exact extent_of_payload done
      · exact extent_of_payload done
  · cases done
    rfl

theorem extents_of_mapM_attach {rest : List Instruction}
    (done : rest.mapM (attach units all) = .ok found) : found.map extent = rest.map extent := by
  induction rest generalizing found with
  | nil =>
    cases done
    rfl
  | cons i rest ih =>
    rw [mapM_cons] at done
    obtain ⟨j, first, done⟩ := Outcome.bind_ok.mp done
    obtain ⟨js, others, done⟩ := Outcome.bind_ok.mp done
    cases done
    rw [map_cons, map_cons, attach_extent first, ih others]

theorem decodeInstructions_precedes (fits : units.size ≤ UInt32.size)
    (done : decodeInstructions units = .ok found) : found.Pairwise Precedes := by
  unfold decodeInstructions at done
  cases scanned : scan units 0 with
  | error stop =>
    rw [scanned] at done
    cases done
  | ok all =>
    rw [scanned] at done
    have attached : all.mapM (attach units all) = .ok found := done
    have sorted := (scan_precedes fits scanned).1
    have mapped : (all.map extent).Pairwise Apart := pairwise_map.mpr sorted
    rwa [← extents_of_mapM_attach attached, pairwise_map] at mapped

theorem decoded_of_readCode {f : File} (done : f.readCode offset = .ok code) :
    ∃ units : Array UInt16, units.size ≤ UInt32.size ∧
      decodeInstructions units = .ok code.instructions := by
  unfold File.readCode File.readAt at done
  obtain ⟨head, _, -, done⟩ := Read.bind_ok done
  obtain ⟨left, _, -, done⟩ := Read.bind_ok done
  split at done
  · cases done
  · split at done
    · cases done
    · obtain ⟨units, _, counted, done⟩ := Read.bind_ok done
      obtain ⟨instructions, _, decoded, done⟩ := Read.bind_ok done
      have fits : units.toArray.size ≤ UInt32.size := by
        rw [size_toArray, Read.length_times (congrArg Prod.fst counted)]
        exact Nat.le_of_lt head.size.toNat_lt_size
      -- What is read behind the instructions does not change them.
      have same : code.instructions = instructions := by
        dsimp only at done
        repeat' first
          | obtain ⟨_, _, -, done⟩ := Read.bind_ok done
          | split at done
        all_goals
          cases done
          rfl
      exact ⟨units.toArray, fits, same ▸ congrArg Prod.fst decoded⟩

theorem readCode_precedes {f : File} (done : f.readCode offset = .ok code) :
    code.instructions.Pairwise Precedes := by
  obtain ⟨_, fits, decoded⟩ := decoded_of_readCode done
  exact decodeInstructions_precedes fits decoded

end DexLift.Dex
