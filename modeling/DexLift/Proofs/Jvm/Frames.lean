import DexLift.Jvm.StackMap
import DexLift.Proofs.Jvm.Scanning
import Mathlib.Data.List.Perm.Subperm

/-!
# Reading stack maps back

Each form that a frame is written in begins with a byte that tells the form and the
distance or where the distance stands. So the addresses of frames are read back from
the stack map as they were, as long as a frame has no more types than its counts can
hold.
-/

namespace DexLift.Jvm

open List

variable {types : List UInt8} {distance : Nat} {frames : List (Nat × Frame)} {initial : List VType}

namespace Frame

/-- A frame whose types can be counted in 16 bits. -/
structure Fits (f : Frame) : Prop where
  locals : f.locals.length ≤ 65535
  stack : f.stack.length ≤ 65535

end Frame

theorem VType.encodeAll_cons (t : VType) (types : List VType) :
    encodeAll (t :: types) = do
      let first ← t.encode
      return first ++ (← encodeAll types) := by
  simp [encodeAll]

namespace Scan

variable {pc : Nat}

theorem reads_skipType {count : Nat} (t : VType) (p : Pool) {more : List UInt8}
    (reads : Reads (pc + (t.encode.run p).1.length) (skipTypes count) more ()) :
    Reads pc (skipTypes (count + 1)) ((t.encode.run p).1 ++ more) () := by
  unfold skipTypes
  cases t with
  | object name =>
    -- The tag of a class is followed by its index.
    have tagged : Reads pc u1 [(VType.object name).tag] (VType.object name).tag := reads_u1 _
    refine tagged.bind ?_
    rw [if_pos (.inl rfl)]
    exact (reads_u2 _).bind reads
  | _ =>
    refine (reads_u1 _).bind ?_
    rwa [if_neg (by decide)]

theorem reads_skipTypes (types : List VType) (p : Pool) :
    Reads pc (skipTypes types.length) ((VType.encodeAll types).run p).1 () := by
  induction types generalizing pc p with
  | nil => exact .pure ()
  | cons t types ih =>
    rw [VType.encodeAll_cons]
    exact reads_skipType t p (ih _)

theorem reads_near {n : Nat} (small : n < 64) :
    Reads pc (frameDistance (UInt8.ofNat n)) [] (some n) := by
  have number : (UInt8.ofNat n).toNat = n := by
    rw [UInt8.toNat_ofNat', Nat.mod_eq_of_lt (by omega)]
  simp only [frameDistance, number, if_pos small]
  exact .pure _

theorem reads_nearStack {n : Nat} (small : n < 64) (reads : Reads pc (skipTypes 1) types ()) :
    Reads pc (frameDistance (UInt8.ofNat (64 + n))) types (some n) := by
  have number : (UInt8.ofNat (64 + n)).toNat = 64 + n := by
    rw [UInt8.toNat_ofNat', Nat.mod_eq_of_lt (by omega)]
  simp only [frameDistance, number, if_neg (show ¬ 64 + n < 64 by omega),
    if_pos (show 64 + n < 128 by omega), Nat.add_sub_cancel_left]
  exact reads.bind_nil (.pure _)

theorem reads_far {form : UInt8} (large : 247 ≤ form.toNat) (small : distance ≤ 65535)
    (reads : Reads (pc + 2) (farTypes form.toNat) types ()) :
    Reads pc (frameDistance form) (u2OfNat distance ++ types) (some distance) := by
  have far : frameDistance form = (do
      let distance := (← u2).toNat
      farTypes form.toNat
      return some distance) := by
    simp only [frameDistance, if_neg (show ¬ form.toNat < 64 by omega),
      if_neg (show ¬ form.toNat < 128 by omega), if_neg (show ¬ form.toNat < 247 by omega)]
  rw [far]
  exact reads_u2OfNat (fun distance => farTypes form.toNat >>= fun _ => pure (some distance)) small
    (reads.bind_nil (.pure _))

theorem reads_frame {f : Frame} (fits : f.Fits) (previous : List VType) (small : distance ≤ 65535)
    (p : Pool) :
    ∃ form rest, ((f.encode previous distance).run p).1 = form :: rest ∧
      Reads pc (frameDistance form) rest (some distance) := by
  have bare : ∀ {form : UInt8}, 247 < form.toNat → form.toNat ≤ 251 →
      Reads pc (frameDistance form) (u2OfNat distance) (some distance) := by
    intro form large few
    have types : Reads (pc + 2) (farTypes form.toNat) [] () := by
      rw [farTypes, if_neg (by omega), if_pos few]
      exact .pure ()
    have reads := reads_far (by omega) small types
    rwa [append_nil] at reads
  unfold Frame.encode
  dsimp only
  split
  · by_cases near : distance < 64
    · rw [if_pos near]
      exact ⟨_, _, rfl, reads_near near⟩
    · rw [if_neg near]
      exact ⟨_, _, rfl, bare (by decide) (by decide)⟩
  · split
    next one =>
      have single : f.stack.length = 1 := by simpa using (Bool.and_eq_true_iff.mp one).1
      have types : ∀ pc, Reads pc (skipTypes 1) ((VType.encodeAll f.stack).run p).1 () := by
        intro pc
        rw [← single]
        exact reads_skipTypes f.stack p
      by_cases near : distance < 64
      · simp only [if_pos near]
        exact ⟨_, _, rfl, reads_nearStack near (types pc)⟩
      · simp only [if_neg near]
        exact ⟨_, _, rfl, reads_far (by decide) small (types _)⟩
    next =>
      split
      next chopped =>
        simp only [Bool.and_eq_true, decide_eq_true_eq] at chopped
        have number : (UInt8.ofNat (251 - (previous.length - f.locals.length))).toNat =
            251 - (previous.length - f.locals.length) := by
          rw [UInt8.toNat_ofNat', Nat.mod_eq_of_lt (by omega)]
        exact ⟨_, _, rfl, bare (by omega) (by omega)⟩
      next =>
        split
        next added =>
          simp only [Bool.and_eq_true, decide_eq_true_eq] at added
          have number : (UInt8.ofNat (251 + (f.locals.length - previous.length))).toNat =
              251 + (f.locals.length - previous.length) := by
            rw [UInt8.toNat_ofNat', Nat.mod_eq_of_lt (by omega)]
          refine ⟨_, _, rfl, reads_far (by omega) small ?_⟩
          rw [number, farTypes, if_neg (by omega), if_neg (by omega), if_pos (by omega),
            Nat.add_sub_cancel_left, ← length_drop]
          exact reads_skipTypes _ p
        next =>
          refine ⟨255, u2OfNat distance ++ (u2OfNat f.locals.length ++
            (((VType.encodeAll f.locals).run p).1 ++ (u2OfNat f.stack.length ++
              ((VType.encodeAll f.stack).run ((VType.encodeAll f.locals).run p).2).1))), ?_, ?_⟩
          · simp only [← append_assoc]
            rfl
          · refine reads_far (by decide) small ?_
            refine reads_u2OfNat (fun n => do
              skipTypes n
              skipTypes (← u2).toNat) fits.locals ?_
            refine (reads_skipTypes f.locals p).bind ?_
            exact reads_u2OfNat skipTypes fits.stack (reads_skipTypes f.stack _)

theorem reads_frameOffsets {previous : List VType} {next : Nat}
    (fits : ∀ entry ∈ frames, entry.2.Fits) (ascending : frames.Pairwise fun a b => a.1 < b.1)
    (behind : ∀ entry ∈ frames, next ≤ entry.1 ∧ entry.1 ≤ 65535) (p : Pool) :
    Reads pc (frameOffsets frames.length next) ((encodeFrames previous next frames).run p).1
      (.ok (frames.map Prod.fst)) := by
  induction frames generalizing pc previous next p with
  | nil => exact .pure _
  | cons entry frames ih =>
    obtain ⟨here, f⟩ := entry
    obtain ⟨least, ascending⟩ := pairwise_cons.mp ascending
    obtain ⟨fit, fits⟩ := forall_mem_cons.mp fits
    obtain ⟨⟨low, high⟩, behind⟩ := forall_mem_cons.mp behind
    obtain ⟨form, rest, encoded, reads⟩ : ∃ form rest,
        ((f.encode previous (here - next)).run p).1 = form :: rest ∧
          Reads (pc + 1) (frameDistance form) rest (some (here - next)) :=
      reads_frame fit previous (by omega) p
    have others : ∀ entry ∈ frames, here + 1 ≤ entry.1 ∧ entry.1 ≤ 65535 := fun entry member =>
      ⟨least entry member, (behind entry member).2⟩
    have split : ((encodeFrames previous next ((here, f) :: frames)).run p).1 =
        [form] ++ (rest ++ ((encodeFrames f.locals (here + 1) frames).run
          ((f.encode previous (here - next)).run p).2).1) := by
      rw [← append_assoc, singleton_append, ← encoded]
      rfl
    rw [split, length_cons, frameOffsets]
    refine reads_isFine.nil_bind ?_
    rw [if_pos rfl]
    refine (reads_u1 form).bind (reads.bind ?_)
    have reach : next + (here - next) = here := by omega
    dsimp only
    rw [reach]
    exact (ih fits ascending others _).bind_nil (.pure _)

end Scan

theorem frameOffsets_of_count (count : frames.length ≤ 65535)
    (fits : ∀ entry ∈ frames, entry.2.Fits) (ascending : frames.Pairwise fun a b => a.1 < b.1)
    (low : ∀ entry ∈ frames, entry.1 ≤ 65535) (p : Pool) :
    frameOffsets ⟨((encodeStackMap initial frames).run p).1.toArray⟩ =
      .ok (frames.map Prod.fst) := by
  have behind : ∀ entry ∈ frames, 0 ≤ entry.1 ∧ entry.1 ≤ 65535 := fun entry member =>
    ⟨Nat.zero_le _, low entry member⟩
  have reads : Scan.Reads 0 (do Scan.frameOffsets (← Scan.u2).toNat 0)
      ((encodeStackMap initial frames).run p).1 (.ok (frames.map Prod.fst)) :=
    Scan.reads_u2OfNat (Scan.frameOffsets · 0) count
      (Scan.reads_frameOffsets fits ascending behind p)
  have before : Scan.Before { data := ⟨((encodeStackMap initial frames).run p).1.toArray⟩ } 0
      ((encodeStackMap initial frames).run p).1 := ⟨rfl, rfl, Nat.zero_le _, by simp⟩
  unfold frameOffsets
  dsimp only
  rw [reads _ before]

theorem length_le_of_ascending {α : Type} {entries : List (Nat × α)} {stop : Nat}
    (ascending : entries.Pairwise fun a b => a.1 < b.1)
    (low : ∀ entry ∈ entries, entry.1 < stop) : entries.length ≤ stop := by
  have distinct : (entries.map Prod.fst).Nodup :=
    pairwise_map.mpr (ascending.imp Nat.ne_of_lt)
  have inside : entries.map Prod.fst ⊆ range stop := by grind
  have few := (subperm_of_subset distinct inside).length_le
  rwa [length_map, length_range] at few

theorem frameOffsets_encodeStackMap (fits : ∀ entry ∈ frames, entry.2.Fits)
    (ascending : frames.Pairwise fun a b => a.1 < b.1) (low : ∀ entry ∈ frames, entry.1 < 65535)
    (p : Pool) :
    frameOffsets ⟨((encodeStackMap initial frames).run p).1.toArray⟩ =
      .ok (frames.map Prod.fst) :=
  frameOffsets_of_count (length_le_of_ascending ascending low) fits ascending
    (fun entry member => le_of_lt (low entry member)) p

end DexLift.Jvm
