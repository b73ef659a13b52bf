import DexLift.Proofs.Jvm.Assembling
import DexLift.Proofs.Jvm.Frames
import DexLift.Proofs.Jvm.Interning

/-!
# What a stack map says

The first byte of a frame in a stack map says how its types follow from those of the
frame before it, and the first frame follows from the one at the entry. The rules of
the format are stated here on their own, as a reader of bytes. Whatever form a frame is
written in, that reader gives it back, so that the frames behind it are read relative to
the right types too. A frame with more types than a count of two bytes can hold has no
form at all.
-/

namespace DexLift.Jvm

open List VType UInt8

/-! ## The rules of the format -/

variable {t : VType} {bytes : List UInt8} {f : Frame} {q : Pool} {previous initial : List VType}
  {distance : Nat}

namespace Decode

/-- The types that are their tag only, in the order of the tags. -/
def plainTypes : List VType :=
  [.top, .integer, .float, .double, .long, .null, .uninitializedThis]

/-- A type; that of an object is followed by the index of its class. -/
def type (q : Pool) : Decode VType := do
  let tag ← byte
  match plainTypes[tag.toNat]? with
  | some t => return t
  | none =>
    if tag = 7 then return .object (q.className (UInt16.ofNat (← count))) else failure

/-- What follows the distance of a frame that has it in bytes of its own. -/
def farFrame (q : Pool) (previous : List VType) (form : Nat) : Decode Frame := do
  if form = 247 then return ⟨previous, [← type q]⟩
  else if form ≤ 251 then
    let fewer := 251 - form
    if previous.length < fewer then failure
    else return ⟨previous.take (previous.length - fewer), []⟩
  else if form ≤ 254 then return ⟨previous ++ (← times (type q) (form - 251)), []⟩
  else
    let locals ← times (type q) (← count)
    return ⟨locals, ← times (type q) (← count)⟩

def frame (q : Pool) (previous : List VType) : Decode (Nat × Frame) := do
  let form := (← byte).toNat
  if form < 64 then return (form, ⟨previous, []⟩)
  else if form < 128 then return (form - 64, ⟨previous, [← type q]⟩)
  else if form < 247 then failure
  else
    let distance ← count
    return (distance, ← farFrame q previous form)

/-- Frames and their addresses, none of which is below `next`. -/
def frames (q : Pool) : (count : Nat) → (previous : List VType) → (next : Nat) →
    Decode (List (Nat × Frame))
  | 0, _, _ => return []
  | count + 1, previous, next => do
    let (distance, f) ← frame q previous
    return (next + distance, f) :: (← frames q count f.locals (next + distance + 1))

end Decode

/-- The frames of a stack map, the first one behind a frame with the types at the entry. Nothing may
be left over. -/
def decodeStackMap (q : Pool) (initial : List VType) (bytes : List UInt8) :
    Option (List (Nat × Frame)) :=
  match (do Decode.frames q (← Decode.count) initial 0 : Decode _).run bytes with
  | some (frames, []) => some frames
  | _ => none

/-! ## Reading what was written -/

namespace Decode

section Forms

variable {q : Pool} {previous locals : List VType} {distance : Nat}

theorem yields_near (near : distance < 64) :
    Yields (frame q previous) [ofNat distance] (distance, ⟨previous, []⟩) := by
  have number : (ofNat distance).toNat = distance := by
    rw [toNat_ofNat', Nat.mod_eq_of_lt (by omega)]
  refine (yields_byte _).bind_nil ?_
  rw [number, if_pos near]
  exact .pure _

theorem yields_nearStack (near : distance < 64) (reads : Yields (type q) bytes t) :
    Yields (frame q previous) (ofNat (64 + distance) :: bytes)
      (distance, ⟨previous, [t]⟩) := by
  have number : (ofNat (64 + distance)).toNat = 64 + distance := by
    rw [toNat_ofNat', Nat.mod_eq_of_lt (by omega)]
  refine (yields_byte (ofNat (64 + distance))).bind ?_
  rw [number, if_neg (by omega), if_pos (by omega), Nat.add_sub_cancel_left]
  exact reads.bind_nil (.pure _)

theorem yields_far (small : distance ≤ 65535) {form : UInt8} {n : Nat} (number : form.toNat = n)
    (large : 247 ≤ n) (reads : Yields (farFrame q previous n) bytes f) :
    Yields (frame q previous) (form :: u2OfNat distance ++ bytes) (distance, f) := by
  refine (yields_byte form).bind ?_
  rw [number, if_neg (by omega), if_neg (by omega), if_neg (by omega)]
  refine (yields_count small).bind ?_
  exact reads.bind_nil (.pure _)

theorem yields_farStack (reads : Yields (type q) bytes t) :
    Yields (farFrame q previous 247) bytes ⟨previous, [t]⟩ := by
  unfold farFrame
  rw [if_pos rfl]
  exact reads.bind_nil (.pure _)

theorem yields_fewer {fewer : Nat} (few : fewer ≤ 3) (inside : fewer ≤ previous.length) :
    Yields (farFrame q previous (251 - fewer)) []
      ⟨previous.take (previous.length - fewer), []⟩ := by
  have left : 251 - (251 - fewer) = fewer := by omega
  unfold farFrame
  rw [if_neg (by omega), if_pos (by omega), left, if_neg (by omega)]
  exact .pure _

theorem yields_more (few : locals.length ≤ 3) (some_ : 0 < locals.length)
    (reads : Yields (times (type q) locals.length) bytes locals) :
    Yields (farFrame q previous (251 + locals.length)) bytes ⟨previous ++ locals, []⟩ := by
  unfold farFrame
  rw [if_neg (by omega), if_neg (by omega), if_pos (by omega), Nat.add_sub_cancel_left]
  exact reads.bind_nil (.pure _)

theorem yields_full (fits : f.Fits) {more : List UInt8}
    (reads : Yields (times (type q) f.locals.length) bytes f.locals)
    (readsStack : Yields (times (type q) f.stack.length) more f.stack) :
    Yields (farFrame q previous 255)
      (u2OfNat f.locals.length ++ (bytes ++ (u2OfNat f.stack.length ++ more))) f := by
  unfold farFrame
  rw [if_neg (by decide), if_neg (by decide), if_neg (by decide)]
  refine (yields_count fits.locals).bind ?_
  refine reads.bind ?_
  refine (yields_count fits.stack).bind ?_
  exact readsStack.bind_nil (.pure _)

variable (small : distance ≤ 65535)

include small

theorem yields_same : Yields (frame q previous)
    (if distance < 64 then [ofNat distance] else 251 :: u2OfNat distance)
    (distance, ⟨previous, []⟩) := by
  by_cases near : distance < 64
  · rw [if_pos near]
    exact yields_near near
  · rw [if_neg near]
    have bare : Yields (farFrame q previous 251) [] ⟨previous, []⟩ := by
      have reads := yields_fewer (q := q) (Nat.zero_le 3) (Nat.zero_le previous.length)
      rwa [Nat.sub_zero, Nat.sub_zero, take_length] at reads
    have number : (251 : UInt8).toNat = 251 := rfl
    have reads := yields_far small number (by decide) bare
    rwa [append_nil] at reads

theorem yields_sameStack (reads : Yields (type q) bytes t) :
    Yields (frame q previous)
      ((if distance < 64 then [ofNat (64 + distance)] else 247 :: u2OfNat distance) ++ bytes)
      (distance, ⟨previous, [t]⟩) := by
  by_cases near : distance < 64
  · rw [if_pos near]
    exact yields_nearStack near reads
  · rw [if_neg near]
    have number : (247 : UInt8).toNat = 247 := rfl
    exact yields_far small number (by decide) (yields_farStack reads)

theorem yields_chopped (few : previous.length - locals.length ≤ 3)
    (some_ : 0 < previous.length - locals.length) (first : locals = previous.take locals.length) :
    Yields (frame q previous)
      (ofNat (251 - (previous.length - locals.length)) :: u2OfNat distance)
      (distance, ⟨locals, []⟩) := by
  have reads := yields_fewer (q := q) few (Nat.sub_le previous.length locals.length)
  have left : previous.length - (previous.length - locals.length) = locals.length := by omega
  rw [left, ← first] at reads
  have number : (ofNat (251 - (previous.length - locals.length))).toNat =
      251 - (previous.length - locals.length) := by
    rw [toNat_ofNat', Nat.mod_eq_of_lt (by omega)]
  have whole := yields_far small number (by omega) reads
  rwa [append_nil] at whole

theorem yields_appended (few : locals.length - previous.length ≤ 3)
    (some_ : 0 < locals.length - previous.length) (first : locals.take previous.length = previous)
    (reads : Yields (times (type q) (locals.drop previous.length).length) bytes
      (locals.drop previous.length)) :
    Yields (frame q previous)
      (ofNat (251 + (locals.length - previous.length)) :: u2OfNat distance ++ bytes)
      (distance, ⟨locals, []⟩) := by
  have length : (locals.drop previous.length).length = locals.length - previous.length :=
    length_drop
  have more : Yields (farFrame q previous (251 + (locals.drop previous.length).length)) bytes
      ⟨previous ++ locals.drop previous.length, []⟩ :=
    yields_more (by omega) (by omega) reads
  have whole : previous ++ locals.drop previous.length = locals := by
    rw [← take_append_drop previous.length locals, first, drop_left]
  rw [whole, length] at more
  have number : (ofNat (251 + (locals.length - previous.length))).toNat =
      251 + (locals.length - previous.length) := by
    rw [toNat_ofNat', Nat.mod_eq_of_lt (by omega)]
  exact yields_far small number (by omega) more

end Forms

theorem yields_object {i : UInt16} {name : Text} (here : q.IsClass i name) :
    Yields (type q) ((object name).tag :: u2 i) (.object name) := by
  obtain ⟨text, entry, isName⟩ := here
  have named : q.className (UInt16.ofNat i.toNat) = name := by
    rw [UInt16.ofNat_toNat, Pool.className, entry.entry_eq]
    change q.text text = name
    rw [Pool.text, isName.entry_eq]
  refine (yields_byte 7).bind ?_
  refine (yields_index i).bind_nil ?_
  rw [named]
  exact .pure _

section Written

variable {p r q : Pool} (sound : p.Sound) (fine : r.failure = none) (later : r.Grows q)

include sound fine later

theorem yields_type (grows : (t.encode.run p).2.Grows r) :
    Yields (type q) (t.encode.run p).1 t := by
  cases t with
  | object name =>
    have grows : ((Pool.class_ name).run p).2.Grows r := grows
    exact yields_object ((Pool.isClass_class sound (grows.fine fine)).grow (grows.trans later))
  | _ => exact (yields_byte _).bind_nil (.pure _)

theorem yields_types {ts : List VType} (grows : ((encodeAll ts).run p).2.Grows r) :
    Yields (times (type q) ts.length) ((encodeAll ts).run p).1 ts := by
  induction ts generalizing p with
  | nil => exact .pure []
  | cons t ts ih =>
    rw [encodeAll_cons] at grows ⊢
    have grows : ((encodeAll ts).run (t.encode.run p).2).2.Grows r := grows
    have more := adds_encodeAll ts (t.encode.run p).2
    refine (yields_type sound fine later (more.trans grows)).bind ?_
    exact (ih ((t.adds_encode p).sound sound) grows).bind_nil (.pure _)

/-- A frame is read as it was written, in whatever form. -/
theorem yields_frame (fits : f.Fits) (small : distance ≤ 65535)
    (grows : ((f.encode previous distance).run p).2.Grows r) :
    Yields (frame q previous) ((f.encode previous distance).run p).1 (distance, f) := by
  obtain ⟨locals, stack⟩ := f
  unfold Frame.encode at grows ⊢
  dsimp only at grows ⊢
  split at grows
  next same =>
    rw [if_pos same]
    obtain ⟨rfl, rfl⟩ : stack = [] ∧ locals = previous := by simpa using same
    exact yields_same small
  next other =>
  rw [if_neg other]
  split at grows
  next one =>
    rw [if_pos one]
    obtain ⟨⟨t, rfl⟩, rfl⟩ : (∃ t, stack = [t]) ∧ locals = previous := by
      simpa [length_eq_one_iff] using one
    rw [encodeAll_cons] at grows ⊢
    have bytes : ((do
        let first ← t.encode
        return first ++ (← encodeAll [])).run p).1 = (t.encode.run p).1 :=
      append_nil _
    have reads : Yields (frame q locals) _ (distance, ⟨locals, [t]⟩) :=
      yields_sameStack small (yields_type sound fine later grows)
    rwa [← bytes] at reads
  next several =>
  rw [if_neg several]
  split at grows
  next chopped =>
    rw [if_pos chopped]
    simp only [Bool.and_eq_true, List.isEmpty_iff, decide_eq_true_eq, beq_iff_eq] at chopped
    obtain ⟨⟨⟨rfl, some_⟩, few⟩, first⟩ := chopped
    exact yields_chopped small few some_ first
  next unlike =>
  rw [if_neg unlike]
  split at grows
  next added =>
    rw [if_pos added]
    simp only [Bool.and_eq_true, List.isEmpty_iff, decide_eq_true_eq, beq_iff_eq] at added
    obtain ⟨⟨⟨rfl, some_⟩, few⟩, first⟩ := added
    exact yields_appended small few some_ first (yields_types sound fine later grows)
  next unlikeToo =>
  rw [if_neg unlikeToo]
  have grows : ((encodeAll stack).run ((encodeAll locals).run p).2).2.Grows r := grows
  have more := adds_encodeAll stack ((encodeAll locals).run p).2
  have number : (255 : UInt8).toNat = 255 := rfl
  have reads : Yields (frame q previous) _ (distance, ⟨locals, stack⟩) :=
    yields_far small number (by decide) (yields_full fits
      (yields_types sound fine later (more.trans grows))
      (yields_types ((adds_encodeAll locals p).sound sound) fine later grows))
  simp only [cons_append, ← append_assoc] at reads
  exact reads

theorem yields_frames {next : Nat} {entries : List (Nat × Frame)}
    (fits : ∀ entry ∈ entries, entry.2.Fits) (ascending : entries.Pairwise fun a b => a.1 < b.1)
    (behind : ∀ entry ∈ entries, next ≤ entry.1 ∧ entry.1 ≤ 65535)
    (grows : ((encodeFrames previous next entries).run p).2.Grows r) :
    Yields (frames q entries.length previous next) ((encodeFrames previous next entries).run p).1
      entries := by
  induction entries generalizing p previous next with
  | nil => exact .pure []
  | cons entry entries ih =>
    obtain ⟨here, f⟩ := entry
    obtain ⟨least, ascending⟩ := pairwise_cons.mp ascending
    obtain ⟨fit, fits⟩ := forall_mem_cons.mp fits
    obtain ⟨⟨low, high⟩, behind⟩ := forall_mem_cons.mp behind
    have others : ∀ entry ∈ entries, here + 1 ≤ entry.1 ∧ entry.1 ≤ 65535 := fun entry member =>
      ⟨least entry member, (behind entry member).2⟩
    have grows : ((encodeFrames f.locals (here + 1) entries).run
        ((f.encode previous (here - next)).run p).2).2.Grows r := grows
    have more := adds_encodeFrames f.locals (here + 1) entries
      ((f.encode previous (here - next)).run p).2
    have reach : next + (here - next) = here := by omega
    refine (yields_frame sound fine later fit (by omega) (more.trans grows)).bind ?_
    dsimp only
    rw [reach]
    exact (ih ((f.adds_encode _ _ p).sound sound) fits ascending others grows).bind_nil (.pure _)

end Written

/-! ## Frames that no bytes say -/

theorem length_locals_farFrame {form : Nat} {rest : List UInt8} (few : form ≤ 255)
    (read : (farFrame q previous form).run bytes = some (f, rest)) :
    f.locals.length ≤ max (previous.length + 3) 65535 := by
  unfold farFrame at read
  split at read
  next =>
    obtain ⟨t, left, -, read⟩ := run_bind_eq_some.mp read
    obtain ⟨rfl, -⟩ : (⟨previous, [t]⟩ : Frame) = f ∧ left = rest := by simpa using read
    dsimp only
    omega
  next =>
    split at read
    next =>
      dsimp only at read
      split at read
      next => cases read
      next =>
        obtain ⟨rfl, -⟩ :
            (⟨previous.take (previous.length - (251 - form)), []⟩ : Frame) = f ∧ bytes = rest := by
          simpa using read
        dsimp only
        rw [length_take]
        omega
    next =>
      split at read
      next =>
        obtain ⟨more, left, readMore, read⟩ := run_bind_eq_some.mp read
        obtain ⟨rfl, -⟩ : (⟨previous ++ more, []⟩ : Frame) = f ∧ left = rest := by simpa using read
        have := length_times readMore
        dsimp only
        rw [length_append]
        omega
      next =>
        obtain ⟨n, left, readCount, read⟩ := run_bind_eq_some.mp read
        obtain ⟨locals, left, readLocals, read⟩ := run_bind_eq_some.mp read
        obtain ⟨m, left, -, read⟩ := run_bind_eq_some.mp read
        obtain ⟨stack, left, -, read⟩ := run_bind_eq_some.mp read
        obtain ⟨rfl, -⟩ : (⟨locals, stack⟩ : Frame) = f ∧ left = rest := by simpa using read
        have := length_times readLocals
        have := count_le readCount
        dsimp only
        omega

theorem length_locals_frame {rest : List UInt8}
    (read : (frame q previous).run bytes = some ((distance, f), rest)) :
    f.locals.length ≤ max (previous.length + 3) 65535 := by
  obtain ⟨form, left, -, read⟩ := run_bind_eq_some.mp read
  dsimp only at read
  split at read
  next =>
    obtain ⟨⟨-, rfl⟩, -⟩ : (form.toNat = distance ∧ (⟨previous, []⟩ : Frame) = f) ∧ left = rest := by
      simpa using read
    dsimp only
    omega
  next =>
    split at read
    next =>
      obtain ⟨t, left, -, read⟩ := run_bind_eq_some.mp read
      obtain ⟨⟨-, rfl⟩, -⟩ :
          (form.toNat - 64 = distance ∧ (⟨previous, [t]⟩ : Frame) = f) ∧ left = rest := by
        simpa using read
      dsimp only
      omega
    next =>
      split at read
      next => cases read
      next =>
        obtain ⟨far, left, -, read⟩ := run_bind_eq_some.mp read
        obtain ⟨g, left, readFrame, read⟩ := run_bind_eq_some.mp read
        obtain ⟨⟨-, rfl⟩, -⟩ : (far = distance ∧ g = f) ∧ left = rest := by simpa using read
        have few := form.toNat_lt
        exact length_locals_farFrame (by omega) readFrame

end Decode

/-! ## Room for the class names -/

section Room

open Intern (Takes)

/-- The most entries that a type takes. -/
def VType.room : VType → Nat
  | object _ => 2
  | _ => 0

/-- The most entries that the types of a frame take. -/
def Frame.room (f : Frame) : Nat :=
  (f.locals.map VType.room).sum + (f.stack.map VType.room).sum

/-- Whether the name of the class, if the type has one, is short enough for an entry. -/
def VType.isShort : VType → Bool
  | object name => !Pool.isTooLong name
  | _ => true

theorem VType.takes_encodeAll {types : List VType} (short : ∀ t ∈ types, t.isShort = true) :
    Takes (types.map room).sum (encodeAll types) := by
  have each : ∀ t ∈ types, Takes t.room t.encode := by
    intro t member
    cases t with
    | object name =>
      have shortName : Pool.isTooLong name = false := by
        simpa [isShort] using short _ member
      exact (Pool.takes_class shortName).bind fun _ => .pure _
    | _ => exact .pure _
  exact (Takes.mapM each).bind fun _ => .pure _

/-- A frame takes no more than its types, in whatever form. -/
theorem Frame.takes_encode (short : ∀ t ∈ f.locals ++ f.stack, t.isShort = true)
    (previous : List VType) (distance : Nat) : Takes f.room (f.encode previous distance) := by
  have locals : Takes (f.locals.map VType.room).sum (VType.encodeAll f.locals) :=
    takes_encodeAll fun t member => short t (mem_append_left _ member)
  have stack : Takes (f.stack.map VType.room).sum (VType.encodeAll f.stack) :=
    takes_encodeAll fun t member => short t (mem_append_right _ member)
  have more : Takes ((f.locals.drop previous.length).map VType.room).sum
      (encodeAll (f.locals.drop previous.length)) :=
    takes_encodeAll fun t member =>
      short t (mem_append_left _ (mem_of_mem_drop member))
  have fewer : ((f.locals.drop previous.length).map VType.room).sum ≤
      (f.locals.map VType.room).sum := by
    conv_rhs => rw [← take_append_drop previous.length f.locals, map_append, sum_append]
    exact Nat.le_add_left _ _
  unfold encode room
  dsimp only
  split
  · exact (Takes.pure _).mono (Nat.zero_le _)
  · split
    · exact (stack.bind fun _ => .pure _).mono (by omega)
    · split
      · exact (Takes.pure _).mono (Nat.zero_le _)
      · split
        · exact (more.bind fun _ => .pure _).mono (by omega)
        · exact locals.bind fun _ => stack.bind fun _ => .pure _

theorem takes_encodeStackMap {frames : List (Nat × Frame)}
    (short : ∀ entry ∈ frames, ∀ t ∈ entry.2.locals ++ entry.2.stack, t.isShort = true) :
    Takes (frames.map fun entry => entry.2.room).sum (encodeStackMap initial frames) := by
  have all : ∀ previous next, Takes (frames.map fun entry => entry.2.room).sum
      (encodeFrames previous next frames) := by
    induction frames with
    | nil => exact fun _ _ => .pure []
    | cons entry frames ih =>
      obtain ⟨shortFirst, short⟩ := forall_mem_cons.mp short
      intro previous next
      rw [map_cons, sum_cons]
      exact (Frame.takes_encode shortFirst previous _).bind fun _ =>
        (ih short _ _).bind fun _ => .pure _
  exact (all initial 0).bind fun _ => .pure _

end Room

/-! ## Whole stack maps -/

/-- No stack map says a first frame that has more locals than a count can hold, unless there are
about as many at the entry. -/
theorem length_locals_of_decodeStackMap {pc : Nat} {frames : List (Nat × Frame)}
    (decoded : decodeStackMap q initial bytes = some ((pc, f) :: frames)) :
    f.locals.length ≤ max (initial.length + 3) 65535 := by
  unfold decodeStackMap at decoded
  split at decoded
  next all read =>
    obtain rfl : all = (pc, f) :: frames := by simpa using decoded
    obtain ⟨n, left, -, read⟩ := Decode.run_bind_eq_some.mp read
    cases n with
    | zero => cases read
    | succ n =>
      obtain ⟨⟨distance, g⟩, left, readFrame, read⟩ := Decode.run_bind_eq_some.mp read
      obtain ⟨others, left, -, read⟩ := Decode.run_bind_eq_some.mp read
      obtain ⟨⟨⟨-, rfl⟩, -⟩, -⟩ : ((0 + distance = pc ∧ g = f) ∧ others = frames) ∧ left = [] := by
        simpa using read
      exact Decode.length_locals_frame readFrame
  next => cases decoded

section Written

variable {initial : List VType} {frames : List (Nat × Frame)} {p q : Pool} (sound : p.Sound)
  (fine : ((encodeStackMap initial frames).run p).2.failure = none)
  (later : ((encodeStackMap initial frames).run p).2.Grows q) (count : frames.length ≤ 65535)
  (fits : ∀ entry ∈ frames, entry.2.Fits) (ascending : frames.Pairwise fun a b => a.1 < b.1)
  (low : ∀ entry ∈ frames, entry.1 ≤ 65535)

include sound fine later count fits ascending low

theorem decodeStackMap_written :
    decodeStackMap q initial ((encodeStackMap initial frames).run p).1 = some frames := by
  have behind : ∀ entry ∈ frames, 0 ≤ entry.1 ∧ entry.1 ≤ 65535 := fun entry member =>
    ⟨Nat.zero_le _, low entry member⟩
  have readsAll : Decode.Yields (Decode.frames q frames.length initial 0)
      ((encodeFrames initial 0 frames).run p).1 frames :=
    Decode.yields_frames sound fine later fits ascending behind (.refl _)
  have reads : Decode.Yields (do Decode.frames q (← Decode.count) initial 0)
      ((encodeStackMap initial frames).run p).1 frames :=
    (Decode.yields_count count).bind readsAll
  have read := reads []
  rw [append_nil] at read
  unfold decodeStackMap
  rw [read]

/-- A stack map is read back as the frames it was written from, whatever forms they take, and their
addresses are found without reading types. The pool that the class names are looked up in may have
grown since. -/
theorem decodeStackMap_encodeStackMap :
    decodeStackMap q initial ((encodeStackMap initial frames).run p).1 = some frames ∧
      frameOffsets ⟨((encodeStackMap initial frames).run p).1.toArray⟩ =
        .ok (frames.map Prod.fst) :=
  ⟨decodeStackMap_written sound fine later count fits ascending low,
    frameOffsets_of_count count fits ascending low p⟩

end Written

/-- Frames in every form: close and far ones with the same locals, fewer, more, and all anew. -/
def formsFrames : List (Nat × Frame) :=
  [(0, ⟨[.integer], []⟩), (70, ⟨[.integer], [.object "b"]⟩), (71, ⟨[.integer, .long], []⟩),
    (200, ⟨[], []⟩), (201, ⟨[.float, .object "b"], [.null, .top]⟩)]

theorem decodeStackMap_encodeStackMap_forms :
    decodeStackMap ((encodeStackMap [.integer] formsFrames).run {}).2 [.integer]
        ((encodeStackMap [.integer] formsFrames).run {}).1 = some formsFrames ∧
      frameOffsets ⟨((encodeStackMap [.integer] formsFrames).run {}).1.toArray⟩ =
        .ok [0, 70, 71, 200, 201] := by
  have short : ∀ entry ∈ formsFrames, ∀ t ∈ entry.2.locals ++ entry.2.stack, t.isShort = true := by
    decide
  have takes : Intern.Takes 4 (encodeStackMap [.integer] formsFrames) := takes_encodeStackMap short
  have fine := (takes {} rfl (by decide)).1
  have small : ∀ entry ∈ formsFrames,
      entry.2.locals.length ≤ 65535 ∧ entry.2.stack.length ≤ 65535 := by decide
  have fits : ∀ entry ∈ formsFrames, entry.2.Fits := fun entry member =>
    ⟨(small entry member).1, (small entry member).2⟩
  exact decodeStackMap_encodeStackMap Pool.sound_empty fine (.refl _) (by decide) fits (by decide)
    (by decide)

/-- A frame with so many locals and one with none behind it. -/
def crowdedFrames (n : Nat) : List (Nat × Frame) :=
  [(0, ⟨replicate n .integer, []⟩), (1, ⟨[], []⟩)]

theorem takes_crowdedFrames (n : Nat) : Intern.Takes 0 (encodeStackMap [] (crowdedFrames n)) := by
  have short : ∀ entry ∈ crowdedFrames n, ∀ t ∈ entry.2.locals ++ entry.2.stack,
      t.isShort = true := by
    intro entry member t listed
    rcases mem_pair.mp member with rfl | rfl
    · rw [append_nil] at listed
      rw [eq_of_mem_replicate listed]
      rfl
    · cases listed
  have room : ((crowdedFrames n).map fun entry => entry.2.room).sum = 0 := by
    simp [crowdedFrames, Frame.room, room]
  rw [← room]
  exact takes_encodeStackMap short

/-- A frame with more locals than a count can hold is read back as something else. -/
theorem decodeStackMap_ne_crowdedFrames :
    ((encodeStackMap [] (crowdedFrames 65536)).run {}).2.failure = none ∧
      ∀ q, decodeStackMap q [] ((encodeStackMap [] (crowdedFrames 65536)).run {}).1 ≠
        some (crowdedFrames 65536) := by
  constructor
  · exact (takes_crowdedFrames 65536 {} rfl (by decide)).1
  · intro q decoded
    have few := length_locals_of_decodeStackMap decoded
    rw [length_replicate] at few
    exact absurd few (by decide)

end DexLift.Jvm
