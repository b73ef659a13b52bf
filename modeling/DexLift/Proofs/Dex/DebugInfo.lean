import DexLift.Proofs.Dex.CatchHandlers

/-!
# Debug information and the numbers it is made of

The operations of debug information have operands of variable length. All but one of them have
to be numbers that can be read; the name of a variable passes for an absent one where its number
is too long. This is the only mistake in a number that reading passes over: where the data end in
the name, they have ended in front of the type as well.
-/

namespace DexLift.Dex

variable {α β : Type} {c after : Cursor} {stop : Stop}

namespace Read

/-- The first read does what the second does, or refuses a number that is too long. -/
def Stricter (checked read : Read α) : Prop :=
  ∀ c, checked c = read c ∨ (checked c).1 = Outcome.fail .longLeb128

theorem Stricter.refl (read : Read α) : Stricter read read := fun _ => .inl rfl

theorem Stricter.bind {checked read : Read α} {checked' next : α → Read β}
    (first : Stricter checked read) (more : ∀ a, Stricter (checked' a) (next a)) :
    Stricter (checked >>= checked') (read >>= next) := by
  intro c
  show ExceptT.bindCont checked' (checked c).1 (checked c).2 =
      ExceptT.bindCont next (read c).1 (read c).2 ∨
    (ExceptT.bindCont checked' (checked c).1 (checked c).2).1 = _
  rcases first c with same | refused
  · rw [same]
    rcases read c with ⟨stop | a, later⟩
    · exact .inl rfl
    · exact more a later
  · rw [refused]
    exact .inr rfl

theorem Stricter.ite {p : Prop} [Decidable p] {checked checked' read next : Read α}
    (yes : Stricter checked read) (no : Stricter checked' next) :
    Stricter (if p then checked else checked') (if p then read else next) := by
  split
  · exact yes
  · exact no

theorem ulebFrom_ends {left : Nat} {shift sum : UInt32}
    (failed : ulebFrom left shift sum c = (.error stop, after)) :
    stop = .failed ⟨[], .longLeb128⟩ ∨
      stop = .failed ⟨[], .endOfData⟩ ∧ ¬ after.pos < after.data.size := by
  induction left generalizing shift sum c with
  | zero =>
    cases failed
    exact .inl rfl
  | succ left ih =>
    rw [ulebFrom] at failed
    by_cases inside : c.pos < c.data.size
    · have first : Read.byte c = (.ok c.data[c.pos], { c with pos := c.pos + 1 }) := dif_pos inside
      rw [bind_of_ok first] at failed
      split at failed
      · cases failed
      · exact ih failed
    · rw [bind_of_error (byte_of_end inside)] at failed
      cases failed
      exact .inr ⟨rfl, inside⟩

theorem uleb128p1_ends (failed : uleb128p1 c = (.error stop, after)) :
    stop = .failed ⟨[], .longLeb128⟩ ∨
      stop = .failed ⟨[], .endOfData⟩ ∧ ¬ after.pos < after.data.size := by
  rcases here : uleb128 c with ⟨other | n, later⟩
  · rw [uleb128p1, bind_of_error here] at failed
    cases failed
    exact ulebFrom_ends here
  · rw [uleb128p1, bind_of_ok here] at failed
    cases failed

theorem uleb128p1_of_end (nothing : ¬ c.pos < c.data.size) :
    uleb128p1 c = (Outcome.fail .endOfData, c) := by
  have none : uleb128 c = (Outcome.fail .endOfData, c) := bind_of_error (byte_of_end nothing)
  rw [uleb128p1, bind_of_error none]
  rfl

theorem Stricter.orElse (fallback : Int) {next : Int → Int → Read β} :
    Stricter (do next (← uleb128p1) (← uleb128p1))
      (do next (← uleb128p1.orElse fallback) (← uleb128p1)) := by
  intro c
  rcases here : uleb128p1 c with ⟨stop | n, later⟩
  · rw [bind_of_error here]
    rcases uleb128p1_ends here with rfl | ⟨rfl, nothing⟩
    · exact .inr rfl
    · have absent : uleb128p1.orElse fallback c = (.ok fallback, later) := by
        rw [Read.orElse, here]
      rw [bind_of_ok absent, bind_of_error (uleb128p1_of_end nothing)]
      exact .inl rfl
  · have found : uleb128p1.orElse fallback c = (.ok n, later) := by
      rw [Read.orElse, here]
    rw [bind_of_ok here, bind_of_ok found]
    exact .inl rfl

end Read

namespace File

/-- The variable that an operation begins, with the number of its name checked. -/
def checkedLocal (f : File) (addr codeSize : UInt32) (extended : Bool) : Read LocalVar := do
  let reg ← Read.uleb128
  let name ← Read.uleb128p1
  let type ← Read.uleb128p1
  let name ← Read.lift (f.optString name)
  let type ← Read.lift (f.optType type)
  let signature ← if extended then Read.lift (f.optString (← Read.uleb128p1)) else pure ∅
  return { reg := reg.toUInt16, name, type, signature, start := addr, stop := codeSize }

/-- Runs operations of the debug-information machine with all numbers checked. -/
def checkedDebug (f : File) (offset codeSize : UInt32) (params : List Text) :
    (left : Nat) → DebugState → Read DebugInfo
  | 0, s => f.runDebug offset codeSize params 0 s
  | left + 1, s => do
    let op ← Read.byte
    match op.toNat with
    | 0x00 => return s.finish params
    | 0x01 =>
      let step ← Read.uleb128
      f.checkedDebug offset codeSize params left { s with addr := s.addr + step }
    | 0x02 =>
      let step ← Read.sleb128
      f.checkedDebug offset codeSize params left { s with line := s.line + step.toUInt32 }
    | 0x03 =>
      let var ← f.checkedLocal s.addr codeSize false
      f.checkedDebug offset codeSize params left ((s.close var.reg).start var)
    | 0x04 =>
      let var ← f.checkedLocal s.addr codeSize true
      f.checkedDebug offset codeSize params left ((s.close var.reg).start var)
    | 0x05 =>
      let reg ← Read.uleb128
      f.checkedDebug offset codeSize params left (s.close reg.toUInt16)
    | 0x06 =>
      let reg := (← Read.uleb128).toUInt16
      match s.closed.lookup reg with
      | some var =>
        f.checkedDebug offset codeSize params left
          ((s.close reg).start { var with start := s.addr, stop := codeSize })
      | none => f.checkedDebug offset codeSize params left s
    | 0x07 => f.checkedDebug offset codeSize params left s
    | 0x08 => f.checkedDebug offset codeSize params left s
    | 0x09 =>
      let _ ← Read.uleb128p1
      f.checkedDebug offset codeSize params left s
    | _ => f.checkedDebug offset codeSize params left (s.special op)

variable (f : File) (addr offset codeSize : UInt32)

theorem stricter_local (extended : Bool) :
    Read.Stricter (f.checkedLocal addr codeSize extended) (f.readLocal addr codeSize extended) :=
  (Read.Stricter.refl _).bind fun _ => .orElse (-1)

/-- A variable whose name has a number of five bytes that say that more follow passes for one
without a name. -/
theorem readLocal_longName :
    let none : Section := ⟨0, 0⟩
    let f : File := ⟨⟨∅, 0, 0, 0, none, none, none, none, none, none, none⟩, {}, [], .empty,
      #[], #[], #[]⟩
    let c : Cursor := ⟨⟨#[0, 0x80, 0x80, 0x80, 0x80, 0x80, 0]⟩, 0⟩
    (f.checkedLocal 0 4 false c).1 = Outcome.fail .longLeb128 ∧
      (f.readLocal 0 4 false c).1.map LocalVar.name = .ok ∅ :=
  ⟨rfl, rfl⟩

theorem stricter_debug (params : List Text) (left : Nat) (s : DebugState) :
    Read.Stricter (f.checkedDebug offset codeSize params left s)
      (f.runDebug offset codeSize params left s) := by
  induction left generalizing s with
  | zero => exact .refl _
  | succ left ih =>
    refine (Read.Stricter.refl _).bind fun op => ?_
    match op.toNat with
    | 0 => exact .refl (pure (s.finish params))
    | 3 | 4 => exact (f.stricter_local _ _ _).bind fun _ => ih _
    | 6 =>
      refine (Read.Stricter.refl _).bind fun reg => ?_
      dsimp only
      cases s.closed.lookup reg.toUInt16 <;> exact ih _
    | 1 | 2 | 5 | 9 => exact (Read.Stricter.refl _).bind fun _ => ih _
    | 7 | 8 | _ + 10 => exact ih _

/-- The debug information at an offset, with all numbers checked. -/
def checkedDebugInfo (f : File) (offset codeSize : UInt32) : Outcome DebugInfo :=
  f.readAt offset.toNat do
    let line ← Read.uleb128
    let count ← Read.uleb128
    if count.toNat > (← Read.remaining) then Read.fail .endOfData
    else
      let params ← Read.times (do Read.lift (f.optString (← Read.uleb128p1))) count.toNat
      f.checkedDebug offset codeSize params 0x100000 { line }

/-- Debug information is read with every number checked, or else one of its numbers is too long. -/
theorem readDebugInfo_checked : f.checkedDebugInfo offset codeSize = f.readDebugInfo offset codeSize ∨
    f.checkedDebugInfo offset codeSize = Outcome.fail .longLeb128 := by
  have stricter : Read.Stricter _ _ :=
    (Read.Stricter.refl Read.uleb128).bind fun line =>
      (Read.Stricter.refl Read.uleb128).bind fun count =>
        (Read.Stricter.refl Read.remaining).bind fun left =>
          Read.Stricter.ite (p := count.toNat > left) (.refl (Read.fail .endOfData)) <|
            (Read.Stricter.refl
              (Read.times (do Read.lift (f.optString (← Read.uleb128p1))) count.toNat)).bind
              fun params => f.stricter_debug offset codeSize params 0x100000 { line }
  exact (stricter (Cursor.ofOffset f.data offset.toNat)).imp (congrArg Prod.fst) id

/-! ## Numbers of a fixed size

Most of the other numbers are read with their failures passed over. A size that comes before has
been compared with what is left of the data, or a number that has to be there comes behind. -/

section

open Read

def checkedSection : Read Section := do
  let size ← u32
  let offset ← u32
  return { size, offset }

theorem heeds_readSection : Heeds 8 8 checkedSection readSection :=
  (sized_u32.heeds_orElse 0 (by decide) (by decide)).bind fun _ =>
    (sized_u32.heeds_orElse 0 (by decide) (by decide)).bind fun _ => .lift (.ok _)

theorem heeds_readHeader (version : Text) (size : Nat) : Heeds 104 104 (do
    let checksum ← u32
    skip 20
    let fileSize ← u32
    let headerSize ← u32
    let _ ← u32
    skip 12
    let strings ← checkedSection
    let types ← checkedSection
    let protos ← checkedSection
    let fields ← checkedSection
    let methods ← checkedSection
    let classes ← checkedSection
    let data ← checkedSection
    return { version, checksum, fileSize, headerSize, strings, types, protos, fields, methods,
             classes, data : Header }) (readHeader version size) := by
  have word {k : Nat} (room : 4 ≤ k) : Heeds k 4 u32 (u32.orElse 0) :=
    sized_u32.heeds_orElse 0 (by decide) room
  have table {k : Nat} (room : 8 ≤ k) := heeds_readSection.mono room
  refine (word (by decide)).bind fun checksum => ?_
  refine ((sized_skip 20).heeds_orElse () (by decide) (by decide)).bind fun _ => ?_
  refine (word (by decide)).bind fun fileSize => ?_
  refine (word (by decide)).bind fun headerSize => ?_
  refine (word (by decide)).bind fun endian => ?_
  refine .ite nofun (.ite nofun (.ite nofun (.ite nofun ?_)))
  refine ((sized_skip 12).heeds_orElse () (by decide) (by decide)).bind fun _ => ?_
  refine (table (by decide)).bind fun strings => (table (by decide)).bind fun types => ?_
  refine (table (by decide)).bind fun protos => (table (by decide)).bind fun fields => ?_
  refine (table (by decide)).bind fun methods => (table (by decide)).bind fun classes => ?_
  exact (table (by decide)).bind fun data => .lift (.ok _)

theorem heeds_memberEntry : Heeds 8 8 (do
    let owner ← u16
    let second ← u16
    let name ← u32
    return (owner.toUInt32, second.toUInt32, name)) memberEntry :=
  (sized_u16.heeds_orElse 0 (by decide) (by decide)).bind fun _ =>
    (sized_u16.heeds_orElse 0 (by decide) (by decide)).bind fun _ =>
      (sized_u32.heeds_orElse 0 (by decide) (by decide)).bind fun _ => .lift (.ok _)

/-- The types of a list. -/
theorem heeds_types (f : File) (count : Nat) :
    Heeds 0 (2 * count) (times (do lift (f.type (← u16).toUInt32)) count)
      (do if count > (← remaining) / 2 then fail .endOfData
          else times (do lift (f.type (← u16.orElse 0).toUInt32)) count) :=
  .compared nofun (((sized_u16.heeds_orElse 0 (by decide) le_rfl).bind fun _ => .lift _).times
    (.inr rfl) count) fun left few => show 2 * count ≤ left by omega

/-- The annotations of parameters. -/
theorem heeds_sets (f : File) (count : Nat) (detail : Text) :
    Heeds 0 (4 * count) (times (do lift (f.readAnnotationSet (← u32))) count)
      (do if count > (← remaining) / 4 then failWith .annotationsDirectory detail
          else times (do lift (f.readAnnotationSet (← u32.orElse 0))) count) :=
  .compared nofun (((sized_u32.heeds_orElse 0 (by decide) le_rfl).bind fun _ => .lift _).times
    (.inr rfl) count) fun left few => show 4 * count ≤ left by omega

theorem heeds_readDirectoryHead : Heeds 0 16 (do
    let classOffset ← u32.recast .annotationsDirectory id
    let fields ← u32
    let methods ← u32
    let params ← u32.recast .annotationsDirectory id
    return (classOffset, fields, methods, params)) readDirectoryHead :=
  (sized_u32.heeds.recast _ _).bind fun _ =>
    sized_u32.heeds_orElse_bind 0 (by decide) (by decide) fun _ =>
      sized_u32.heeds_orElse_bind 0 (by decide) (by decide) fun _ =>
        (sized_u32.heeds.recast _ _).bind fun _ => .lift (.ok _)

theorem heeds_readDirectoryList {α : Type} (count : UInt32) (entry : UInt32 → Outcome (List α)) :
    Heeds (8 * count.toNat) (8 * count.toNat) (times (do
      let index ← u32
      let offset ← u32
      return (index, ← lift (entry offset))) count.toNat) (readDirectoryList count entry) :=
  ((sized_u32.heeds_orElse 0 (by decide) (by decide)).bind fun _ =>
    (sized_u32.heeds_orElse 0 (by decide) (by decide)).bind fun _ =>
      (Heeds.lift _).bind fun _ => .lift (.ok _)).times (.inr rfl) _

theorem heeds_readCodeHead (place : Text) : Heeds 0 16 (do
    let registers ← u16
    let ins ← u16
    let outs ← u16
    let tryCount ← u16
    let debugOffset ← u32
    let size ← u32.recast .codeItem fun _ => place
    return { registers, ins, outs, tryCount, debugOffset, size : CodeHead })
      (readCodeHead place) :=
  sized_u16.heeds_orElse_bind 0 (by decide) (by decide) fun _ =>
    sized_u16.heeds_orElse_bind 0 (by decide) (by decide) fun _ =>
      sized_u16.heeds_orElse_bind 0 (by decide) (by decide) fun _ =>
        sized_u16.heeds_orElse_bind 0 (by decide) (by decide) fun _ =>
          sized_u32.heeds_orElse_bind 0 (by decide) (by decide) fun _ =>
            (sized_u32.heeds.recast _ _).bind fun _ => .lift (.ok _)

/-- The numbers of a class definition, and the units of a code item. -/
theorem heeds_numbers (count : Nat) :
    Heeds (4 * count) (4 * count) (times u32 count) (times (u32.orElse 0) count) ∧
      Heeds (2 * count) (2 * count) (times u16 count) (times (u16.orElse 0) count) :=
  ⟨(sized_u32.heeds_orElse 0 (by decide) le_rfl).times (.inr rfl) count,
    (sized_u16.heeds_orElse 0 (by decide) le_rfl).times (.inr rfl) count⟩

/-- The gap in front of the tries, and their items. -/
theorem heeds_tries (count : Nat) : Heeds 0 (8 * (count + 1) + 2)
    (do skip 2; times checkedTryItem (count + 1))
    (do (skip 2).orElse (); times readTryItem (count + 1)) :=
  (sized_skip 2).heeds_orElse_bind () (by decide) (show 2 ≤ 8 * (count + 1) by omega) fun _ =>
    (heeds_readTryItem.times (.inl rfl) (count + 1)).mono (Nat.zero_mul _).le

end

end File

end DexLift.Dex
