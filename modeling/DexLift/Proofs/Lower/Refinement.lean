import DexLift.Proofs.Lower.Simulation
import Mathlib.Order.Monotone.Basic

/-!
# The lowered method runs like the code

A run of the code that never gets stuck and a run of the lowered method make the
same requests on the same values in the same order, and end the same way, if they
end. The second run takes its own number of steps; `pace` says how many.
-/

namespace DexLift.Lower

open Ir Dalvik

variable {V : Type} {file : Dex.File} {method : Dex.Method} {code : Dex.Code} {m : Ir.Method}
  {s : Shape}

theorem Corresponds.seen {d : Status (Dalvik.State V) V} {i : Status (Ir.State V) V}
    (corresponds : Corresponds file m s d i) (unstuck : d ≠ .stuck) :
    d.seen Dalvik.State.history = i.seen Ir.State.history := by
  cases corresponds with
  | running matches_ =>
    obtain ⟨_, _, _, matched⟩ := matches_
    exact congrArg Seen.running matched.history.symm
  | returned => rfl
  | uncaught => rfl
  | stuck => exact absurd rfl unstuck

namespace Lowered

variable (lowered : Lowered file method.ref method.access.isStatic code m s) (w : World V)
  (placed : WellPlaced s.plan.source) (followed : SwitchesFollowed s.plan.source)

include lowered placed followed

/-- One more step of the code is matched by some more steps of the method, and by none only when
the code goes on to a later instruction. -/
theorem advance {n done : Nat}
    (here : Corresponds file m s (run w file method code n) (m.run w done)) :
    ∃ more, done ≤ more ∧
      Corresponds file m s (run w file method code (n + 1)) (m.run w more) ∧
      ∀ d, run w file method code n = .running d → more = done →
        ∃ e, run w file method code (n + 1) = .running e ∧ d.index < e.index := by
  have next : run w file method code (n + 1) =
      Dalvik.Status.step w file s.plan.source (run w file method code n) := by
    rw [lowered.source]
    rfl
  cases status : run w file method code n with
  | running d =>
    rw [status] at here next
    generalize reached : m.run w done = other at here
    cases here with
    | running matches_ =>
      obtain ⟨count, last, leads, there, rises⟩ :=
        lowered.step_matches w placed followed matches_
      refine ⟨done + count, Nat.le_add_right _ _, ?_, ?_⟩
      · rwa [leads.run reached, next]
      · intro e same none
        cases same
        rw [next]
        exact rises (by omega)
  | returned | uncaught =>
    refine ⟨done, le_rfl, ?_, nofun⟩
    rw [status] at here
    rwa [next, status]
  | stuck =>
    refine ⟨done, le_rfl, ?_, nofun⟩
    rw [next, status]
    exact .stuck _

theorem exists_pace : ∃ pace : Nat → Nat, Monotone pace ∧
    (∀ n, Corresponds file m s (run w file method code n) (m.run w (pace n))) ∧
    ∀ n d, run w file method code n = .running d → pace (n + 1) = pace n →
      ∃ e, run w file method code (n + 1) = .running e ∧ d.index < e.index := by
  obtain ⟨count, i, reached, matched⟩ := lowered.start_matches w
  have first : Corresponds file m s (run w file method code 0) (m.run w count) := by
    rw [reached]
    exact .running matched
  have more : ∀ n (done : { p // Corresponds file m s (run w file method code n) (m.run w p) }),
      ∃ next : { p // Corresponds file m s (run w file method code (n + 1)) (m.run w p) },
        done.1 ≤ next.1 ∧ ∀ d, run w file method code n = .running d → next.1 = done.1 →
          ∃ e, run w file method code (n + 1) = .running e ∧ d.index < e.index := by
    rintro n ⟨done, here⟩
    obtain ⟨next, le, there, rises⟩ := lowered.advance w placed followed here
    exact ⟨⟨next, there⟩, le, rises⟩
  choose next le rises using more
  let pace (n : Nat) : { p // Corresponds file m s (run w file method code n) (m.run w p) } :=
    Nat.rec ⟨count, first⟩ (fun n done => next n done) n
  exact ⟨fun n => (pace n).1, monotone_nat_of_le_succ fun n => le n (pace n),
    fun n => (pace n).2, fun n => rises n (pace n)⟩

end Lowered

/-- Of a run that goes on for ever, the lowered method takes ever more steps: the code has only so
many instructions to go on to without a step. -/
theorem unbounded_pace {pace : Nat → Nat} {w : World V} (monotone : Monotone pace)
    (corresponds : ∀ n, Corresponds file m s (run w file method code n) (m.run w (pace n)))
    (rises : ∀ n d, run w file method code n = .running d → pace (n + 1) = pace n →
      ∃ e, run w file method code (n + 1) = .running e ∧ d.index < e.index)
    (forever : ∀ n, ∃ d, run w file method code n = .running d) (bound : Nat) :
    ∃ n, bound ≤ pace n := by
  have inside : ∀ n d, run w file method code n = .running d →
      d.index < s.plan.source.instructions.size := by
    intro n d here
    have corresponding := corresponds n
    rw [here] at corresponding
    generalize m.run w (pace n) = other at corresponding
    cases corresponding with
    | running matches_ =>
      obtain ⟨_, _, _, matched⟩ := matches_
      exact lt_of_lt_of_le matched.before Source.stopOf_le
  induction bound with
  | zero => exact ⟨0, Nat.zero_le _⟩
  | succ bound ih =>
    obtain ⟨n, le⟩ := ih
    by_contra never
    have still : ∀ j, pace (n + j) = bound := by
      intro j
      have := monotone (Nat.le_add_right n j)
      have : ¬ bound + 1 ≤ pace (n + j) := fun more => never ⟨n + j, more⟩
      omega
    -- Every step from here on would lead to a later instruction.
    have later : ∀ j d, run w file method code (n + j) = .running d → j ≤ d.index := by
      intro j
      induction j with
      | zero => exact fun _ _ => Nat.zero_le _
      | succ j before =>
        intro e there
        obtain ⟨d, here⟩ := forever (n + j)
        obtain ⟨other, reached, less⟩ := rises (n + j) d here (by rw [still j]; exact still (j + 1))
        have same := reached.symm.trans there
        cases same
        have := before d here
        omega
    obtain ⟨d, here⟩ := forever (n + s.plan.source.instructions.size)
    have := later _ d here
    have := inside _ d here
    omega

theorem running_of_le {w : World V} {n later : Nat} (le : n ≤ later) {i : Ir.State V}
    (running : m.run w later = .running i) : ∃ before, m.run w n = .running before := by
  induction later, le using Nat.le_induction generalizing i with
  | base => exact ⟨i, running⟩
  | succ later _ ih =>
    have step : m.run w (later + 1) = (m.run w later).step w m := rfl
    cases status : m.run w later with
    | running j => exact ih status
    | returned | uncaught | stuck =>
      rw [step, status] at running
      cases running

/-- Lowering preserves runs. In every world, a run of the code of a method and the run of the
lowered method look the same as long as the code does not get stuck; a run that goes on for ever
goes on for ever, without end to its steps. -/
theorem lower_simulates (w : World V) (done : method.lower file = .ok m)
    (hasCode : method.code = some code) (placed : WellPlaced (.ofCode code))
    (followed : SwitchesFollowed (.ofCode code)) :
    ∃ pace : Nat → Nat, Monotone pace ∧
      (∀ n, run w file method code n ≠ .stuck →
        (run w file method code n).seen Dalvik.State.history =
          (m.run w (pace n)).seen Ir.State.history) ∧
      ((∀ n, ∃ d, run w file method code n = .running d) →
        (∀ bound, ∃ n, bound ≤ pace n) ∧ ∀ n, ∃ i, m.run w n = .running i) := by
  obtain ⟨other, s, same, lowered⟩ := lowered_of_lower done
  cases hasCode.symm.trans same
  rw [← lowered.source] at placed followed
  obtain ⟨pace, monotone, corresponds, rises⟩ := lowered.exists_pace w placed followed
  refine ⟨pace, monotone, fun n unstuck => (corresponds n).seen unstuck, fun forever => ?_⟩
  have unbounded := unbounded_pace monotone corresponds rises forever
  refine ⟨unbounded, fun n => ?_⟩
  obtain ⟨later, le⟩ := unbounded n
  obtain ⟨d, here⟩ := forever later
  have there := corresponds later
  rw [here] at there
  generalize status : m.run w (pace later) = reached at there
  cases there with
  | running => exact running_of_le le status

/-! ## A run -/

/-- Without tables nothing can be looked up. -/
def emptyFile : Dex.File :=
  { header :=
      { version := ∅, checksum := 0, fileSize := 0, headerSize := 0, strings := default
        types := default, protos := default, fields := default, methods := default
        classes := default, data := default }
    options := {}, diagnostics := [], data := ByteArray.empty }

/-- A loop that divides its parameter until that throws, and returns what is left. -/
def dividing : Dex.Code :=
  { registers := 2, ins := 1, outs := 0, debug := none
    instructions := [
      { addr := 0, op := ⟨0x12⟩, regs := [0] },
      { addr := 1, op := ⟨0xb3⟩, regs := [1, 0] },
      { addr := 2, op := ⟨0x28⟩, target := 1 },
      { addr := 3, op := ⟨0x0d⟩, regs := [0] },
      { addr := 4, op := ⟨0x0f⟩, regs := [1] }]
    tries := [{ start := 1, stop := 2, handlers := [{ type := ∅, addr := 3 }] }] }

def dividingMethod : Dex.Method :=
  { ref := { owner := ∅, name := ∅, proto := { params := [⟨[73]⟩], result := ⟨[73]⟩ } }
    access := ⟨8⟩, annotations := [], params := [], code := some dividing }

def halving : World Nat where
  value _ _ := 0
  answer _ _ operands := if operands.headD 0 ≤ 1 then .error 7 else .ok (operands.headD 0 / 2)
  holds _ _ _ := false
  key _ := 0
  takes _ _ := true
  receiver := 0
  param _ := 4

theorem wellPlaced_dividing : WellPlaced (.ofCode dividing) := by
  refine ⟨?_, ?_⟩
  · have all : ∀ j < 5, ∀ i < j, ((Source.ofCode dividing).at_ i).addr <
        ((Source.ofCode dividing).at_ j).addr := by decide
    exact fun i j less inside => all j inside i less
  · intro t member
    cases List.mem_singleton.mp member
    exact ⟨.inl ⟨1, by decide, by decide⟩, .inl ⟨2, by decide, by decide⟩⟩

theorem exists_lower_dividing : ∃ m, dividingMethod.lower emptyFile = .ok m ∧
    (m.actions.filter Action.isPhi).length = 1 := by
  have succeeds : (dividingMethod.lower emptyFile).toOption.map (fun m =>
      (m.actions.filter Action.isPhi).length) = some 1 := by decide +kernel
  cases done : dividingMethod.lower emptyFile with
  | error stop =>
    rw [done] at succeeds
    cases succeeds
  | ok m =>
    rw [done] at succeeds
    exact ⟨m, rfl, Option.some.inj succeeds⟩

/-- The lowered loop divides four and two, is thrown out of dividing one, and returns one. -/
theorem lower_simulates_dividing : ∃ m, dividingMethod.lower emptyFile = .ok m ∧
    ∃ steps, (m.run halving steps).seen Ir.State.history = .returned (some 1)
      [⟨.evaluate (.binary .div .int), [1, 0], .error 7⟩,
        ⟨.evaluate (.binary .div .int), [2, 0], .ok 1⟩,
        ⟨.evaluate (.binary .div .int), [4, 0], .ok 2⟩] := by
  obtain ⟨m, done, -⟩ := exists_lower_dividing
  have none : ∀ index < 5, ((Source.ofCode dividing).at_ index).op.flow.switches = false := by
    decide +kernel
  obtain ⟨pace, -, same, -⟩ := lower_simulates halving done rfl wellPlaced_dividing
    (fun index inside switches => by rw [none index inside] at switches; cases switches)
  have ends : (run halving emptyFile dividingMethod dividing 9).seen Dalvik.State.history =
      .returned (some 1) [⟨.evaluate (.binary .div .int), [1, 0], .error 7⟩,
          ⟨.evaluate (.binary .div .int), [2, 0], .ok 1⟩,
          ⟨.evaluate (.binary .div .int), [4, 0], .ok 2⟩] := by decide +kernel
  refine ⟨m, done, pace 9, (same 9 ?_).symm.trans ends⟩
  intro stuck
  rw [stuck] at ends
  cases ends

end DexLift.Lower
