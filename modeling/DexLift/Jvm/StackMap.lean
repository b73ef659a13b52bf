import DexLift.Descriptor
import DexLift.Jvm.Pool

/-!
# Stack maps

The verifier is told the types of locals and operand stack at the targets of
branches. A frame is written relative to the one before it, in the shortest form
that fits.
-/

namespace DexLift.Jvm

/-- The type of a value as the verifier sees it. -/
inductive VType where
  | top | integer | float | double | long | null
  /-- The receiver of a constructor before the constructor of the superclass ran. -/
  | uninitializedThis
  /-- A class or array, by the name class entries use. -/
  | object (name : Text)
deriving DecidableEq, Inhabited

namespace VType

/-- The byte that marks the type in a stack map. -/
def tag : VType → UInt8
  | top => 0 | integer => 1 | float => 2 | double => 3 | long => 4 | null => 5
  | uninitializedThis => 6 | object _ => 7

/-- The tag of an object that no constructor has run on. -/
def uninitializedTag : UInt8 := 8

/-- Whether a value takes two slots. -/
def isWide (t : VType) : Bool := t == long || t == double

/-- The slots several values take. -/
def slots (types : List VType) : Nat :=
  (types.map fun t => if t.isWide then 2 else 1).foldr (· + ·) 0

/-- The type of a descriptor, which must not be empty. -/
def ofDesc (desc : Text) : Outcome VType :=
  match desc.first? with
  | none => Outcome.crash
  | some b =>
    if b ∈ [90, 66, 67, 83, 73] then .ok integer
    else if b = 70 then .ok float
    else if b = 74 then .ok long
    else if b = 68 then .ok double
    else .ok (object (Descriptor.className desc))

/-- The types without those at the end that say nothing. -/
def trimTops (types : List VType) : List VType :=
  (types.reverse.dropWhile (· == top)).reverse

/-- The types of a table with one entry for each slot: the slot after a wide value is passed over.
-/
def perValue : List VType → List VType
  | [] => []
  | [t] => [t]
  | t :: next :: rest => if t.isWide then t :: perValue rest else t :: perValue (next :: rest)

/-- The types of locals from a table with one entry for each slot. -/
def ofSlots (slots : List VType) : List VType := trimTops (perValue slots)

def encode : VType → Intern (List UInt8)
  | object name => do return (object name).tag :: u2 (← Pool.class_ name)
  | t => return [t.tag]

def encodeAll (types : List VType) : Intern (List UInt8) := do
  return (← types.mapM encode).flatten

end VType

/-- The types of locals and operand stack, one entry for each value. -/
structure Frame where
  locals : List VType
  stack : List VType := []

def Frame.encode (f : Frame) (previous : List VType) (distance : Nat) : Intern (List UInt8) := do
  let same := f.locals == previous
  let more := f.locals.length - previous.length
  let fewer := previous.length - f.locals.length
  let far := u2OfNat distance
  if f.stack.isEmpty && same then
    return if distance < 64 then [UInt8.ofNat distance] else 251 :: far
  else if f.stack.length == 1 && same then
    let start := if distance < 64 then [UInt8.ofNat (64 + distance)] else 247 :: far
    return start ++ (← VType.encodeAll f.stack)
  else if f.stack.isEmpty && 0 < fewer && fewer ≤ 3 &&
      f.locals == previous.take f.locals.length then
    return UInt8.ofNat (251 - fewer) :: far
  else if f.stack.isEmpty && 0 < more && more ≤ 3 &&
      f.locals.take previous.length == previous then
    return UInt8.ofNat (251 + more) :: far ++ (← VType.encodeAll (f.locals.drop previous.length))
  else
    let locals ← VType.encodeAll f.locals
    let stack ← VType.encodeAll f.stack
    return 255 :: far ++ u2OfNat f.locals.length ++ locals ++ u2OfNat f.stack.length ++ stack

/-- Frames from a position on, each relative to the one before. -/
def encodeFrames : (previous : List VType) → (next : Nat) → List (Nat × Frame) →
    Intern (List UInt8)
  | _, _, [] => return []
  | previous, next, (pc, f) :: rest => do
    let first ← f.encode previous (pc - next)
    return first ++ (← encodeFrames f.locals (pc + 1) rest)

/-- The stack map of frames in ascending order; the first is relative to the frame at the entry. -/
def encodeStackMap (initial : List VType) (frames : List (Nat × Frame)) : Intern (List UInt8) := do
  return u2OfNat frames.length ++ (← encodeFrames initial 0 frames)

namespace Scan

def skipTypes : (count : Nat) → Scan Unit
  | 0 => return ()
  | count + 1 => do
    let tag ← u1
    if tag = (VType.object ∅).tag ∨ tag = VType.uninitializedTag then
      let _ ← u2
    skipTypes count

/-- What stands behind the distance of a frame that has it in bytes of its own. -/
def farTypes (n : Nat) : Scan Unit :=
  if n = 247 then skipTypes 1
  else if n ≤ 251 then return ()
  else if n ≤ 254 then skipTypes (n - 251)
  else do
    skipTypes (← u2).toNat
    skipTypes (← u2).toNat

/-- The distance of one frame from the one before; none when its form is not known. -/
def frameDistance (form : UInt8) : Scan (Option Nat) := do
  let n := form.toNat
  if n < 64 then return some n
  else if n < 128 then
    skipTypes 1
    return some (n - 64)
  else if n < 247 then return none
  else
    let distance := (← u2).toNat
    farTypes n
    return some distance

/-- The positions of at most `count` frames, the last one before which is `next - 1`. -/
def frameOffsets : (count next : Nat) → Scan (Outcome (List Nat))
  | 0, _ => return .ok []
  | count + 1, next => do
    if ← isFine then
      let form ← u1
      match ← frameDistance form with
      | none =>
        return Outcome.failWith .stackMap ("frame type " ++ Text.ofNat form.toNat)
      | some distance =>
        let pc := next + distance
        let rest ← frameOffsets count (pc + 1)
        return rest.map (pc :: ·)
    else return .ok []

end Scan

def frameOffsets (body : ByteArray) : Outcome (List Nat) :=
  let scan : Scan (Outcome (List Nat)) := do
    let count ← Scan.u2
    Scan.frameOffsets count.toNat 0
  match scan.run { data := body } with
  | (.ok offsets, scanner) =>
    match scanner.failure with
    | none => .ok offsets
    | some failure => Outcome.failWith .stackMap failure.message
  | (stopped, _) => stopped

end DexLift.Jvm
