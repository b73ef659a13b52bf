import DexLift.Dex.Opcode
import Mathlib.Data.List.Basic

/-!
# Going through the opcodes

The table of opcodes is built from runs. What is asked of each opcode can be asked of
the runs, and of the opcodes that are in none.
-/

namespace DexLift.Dex

open List

/-- The opcodes from one on that no run reaches, for runs in the order of the encoding. -/
def leftOut (next : Nat) : List Run → List Nat
  | [] => range' next (256 - next)
  | run :: rest =>
    range' next (run.first - next) ++ leftOut (run.first + run.names.length) rest

theorem mem_leftOut {runs : List Run} {next code : Nat} (from_ : next ≤ code)
    (bound : code < 256) (missed : ∀ run ∈ runs, run.info? code = none) :
    code ∈ leftOut next runs := by
  induction runs generalizing next with
  | nil => exact mem_range'_1.mpr ⟨from_, by omega⟩
  | cons run rest ih =>
    obtain ⟨here, later⟩ := forall_mem_cons.mp missed
    rw [leftOut, mem_append, mem_range'_1]
    by_cases before : code < run.first
    · exact .inl (by omega)
    · have past : run.names.length ≤ code - run.first := by
        simpa [Run.info?, Nat.not_lt.mp before] using here
      exact .inr (ih (by omega) later)

/-- What holds of encoding and control flow in all runs, and of the opcodes in no run, holds of all
opcodes. The runs are gone through once; asking the table for each opcode would build it each time.
-/
theorem format_flow_of_runs {p : Opcode → Format → Flow → Bool}
    (inside : (runs.all fun run =>
      (range' run.first run.names.length).all fun code =>
        p ⟨.ofNat code⟩ run.format run.flow) = true)
    (outside : ((leftOut 0 runs).all fun code =>
      p ⟨.ofNat code⟩ OpcodeInfo.unused.format OpcodeInfo.unused.flow) = true)
    (op : Opcode) : p op op.format op.flow = true := by
  have same : (⟨.ofNat op.code.toNat⟩ : Opcode) = op := by
    rw [UInt8.ofNat_toNat]
  have entry : op.info =
      (runs.findSome? fun run => run.info? op.code.toNat).getD .unused :=
    Vector.getElem_ofFn (i := op.code.toNat) op.code.toNat_lt
  rw [Opcode.format, Opcode.flow, entry]
  cases found : runs.findSome? fun run => run.info? op.code.toNat with
  | none =>
    have left := mem_leftOut (Nat.zero_le _) op.code.toNat_lt (findSome?_eq_none_iff.mp found)
    have holds := all_eq_true.mp outside _ left
    rwa [same] at holds
  | some info =>
    obtain ⟨run, among, reached⟩ := exists_of_findSome?_eq_some found
    unfold Run.info? at reached
    split at reached
    next start =>
      obtain ⟨name, named, rfl⟩ := Option.map_eq_some_iff.mp reached
      obtain ⟨within, -⟩ := List.getElem?_eq_some_iff.mp named
      have holds := all_eq_true.mp (all_eq_true.mp inside run among)
        op.code.toNat (mem_range'_1.mpr ⟨start, by omega⟩)
      rwa [same] at holds
    next => cases reached

theorem flow_of_runs {p : Opcode → Flow → Bool}
    (inside : (runs.all fun run =>
      (range' run.first run.names.length).all fun code => p ⟨.ofNat code⟩ run.flow) = true)
    (outside : ((leftOut 0 runs).all fun code =>
      p ⟨.ofNat code⟩ OpcodeInfo.unused.flow) = true) (op : Opcode) :
    p op op.flow = true :=
  format_flow_of_runs (p := fun op _ flow => p op flow) inside outside op

end DexLift.Dex
