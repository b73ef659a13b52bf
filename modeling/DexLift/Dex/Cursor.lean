import DexLift.Failure

/-!
# Reading binary data step by step

A cursor is a place in some data. A read answers with a value or a failure and
with the cursor after it; reads of a fixed size that fail leave the cursor where
it was, while a variable-length number consumes the bytes it has looked at.
Multi-byte numbers are little-endian.
-/

namespace DexLift.Dex

/-- A place in some data. -/
structure Cursor where
  data : ByteArray
  pos : Nat

namespace Cursor

/-- A cursor at an offset; an offset outside the data means its end. -/
def ofOffset (data : ByteArray) (offset : Int) : Cursor :=
  if offset > data.size ∨ offset < 0 then ⟨data, data.size⟩ else ⟨data, offset.toNat⟩

/-- How many bytes are left. -/
def remaining (c : Cursor) : Nat := c.data.size - c.pos

/-- The cursor moved to an offset; an offset outside the data means its end. -/
def seek (c : Cursor) (offset : Int) : Cursor := ofOffset c.data offset

/-- The cursor moved up to the next multiple of `alignment`, but not past the end. -/
def align (c : Cursor) (alignment : Int) : Cursor :=
  if alignment ≤ 0 then c
  else
    let step := alignment.toNat
    let excess := c.pos % step
    let moved := if excess = 0 then c.pos else c.pos + (step - excess)
    { c with pos := min moved c.data.size }

end Cursor

abbrev Read := ExceptT Stop (StateM Cursor)

namespace Read

def fail {α : Type} (cause : Cause) : Read α := fun c => (Outcome.fail cause, c)

def failWith {α : Type} (cause : Cause) (detail : Text) : Read α :=
  fun c => (Outcome.failWith cause detail, c)

/-- A result that needs nothing from the cursor. -/
def lift {α : Type} (outcome : Outcome α) : Read α := fun c => (outcome, c)

def under {α : Type} (note : Text) (read : Read α) : Read α := fun c =>
  let (outcome, after) := read c
  (Outcome.under (.detail note) outcome, after)

def recast {α : Type} (cause : Cause) (describe : Text → Text) (read : Read α) : Read α := fun c =>
  match read c with
  | (.error (.failed failure), after) => (Outcome.failWith cause (describe failure.message), after)
  | other => other

/-- Takes a fixed value in place of a failure and goes on from wherever the read stopped. -/
def orElse {α : Type} (fallback : α) (read : Read α) : Read α := fun c =>
  match read c with
  | (.error (.failed _), after) => (.ok fallback, after)
  | other => other

def position : Read Nat := fun c => (.ok c.pos, c)

/-- How many bytes are left. -/
def remaining : Read Nat := fun c => (.ok c.remaining, c)

/-- Runs a read from another place of the same data and comes back. -/
def fromOffset {α : Type} (offset : Nat) (read : Read α) : Read α := fun c =>
  ((read (Cursor.ofOffset c.data offset)).1, c)

def byte : Read UInt8 := fun c =>
  if inside : c.pos < c.data.size then (.ok c.data[c.pos], { c with pos := c.pos + 1 })
  else (Outcome.fail .endOfData, c)

def bytes (n : Int) : Read (List UInt8) := fun c =>
  if n < 0 ∨ c.pos + n > c.data.size then (Outcome.fail .endOfData, c)
  else
    let stop := c.pos + n.toNat
    (.ok (c.data.extract c.pos stop).data.toList, { c with pos := stop })

/-- Moves on by `n` bytes. -/
def skip (n : Int) : Read Unit := fun c =>
  if n < 0 ∨ c.pos + n > c.data.size then (Outcome.fail .endOfData, c)
  else (.ok (), { c with pos := c.pos + n.toNat })

/-- The number whose digits to the base 256 are given, least significant first. -/
def littleEndian : List UInt8 → Nat
  | [] => 0
  | b :: rest => b.toNat + 256 * littleEndian rest

def u16 : Read UInt16 := do return UInt16.ofNat (littleEndian (← bytes 2))

def u32 : Read UInt32 := do return UInt32.ofNat (littleEndian (← bytes 4))

/-- The rest of an unsigned LEB128 number: `left` more bytes may come, the next one goes at `shift`.
-/
def ulebFrom : (left : Nat) → (shift : UInt32) → (sum : UInt32) → Read UInt32
  | 0, _, _ => fail .longLeb128
  | left + 1, shift, sum => do
    let b ← byte
    let sum := sum ||| ((b &&& 0x7f).toUInt32 <<< shift)
    if b &&& 0x80 = 0 then return sum
    ulebFrom left (shift + 7) sum

/-- An unsigned LEB128 number of at most five bytes. -/
def uleb128 : Read UInt32 := ulebFrom 5 0 0

/-- The rest of a signed LEB128 number. The last byte's sign bit fills the bits above it. -/
def slebFrom : (left : Nat) → (shift : UInt32) → (sum : UInt32) → Read UInt32
  | 0, _, _ => fail .longLeb128
  | left + 1, shift, sum => do
    let b ← byte
    let sum := sum ||| ((b &&& 0x7f).toUInt32 <<< shift)
    let shift := shift + 7
    if b &&& 0x80 = 0 then
      let isNegative := shift < 32 && b &&& 0x40 != 0
      return if isNegative then sum ||| ((0xffffffff : UInt32) <<< shift) else sum
    slebFrom left shift sum

/-- A signed LEB128 number of at most five bytes. -/
def sleb128 : Read Int32 := do return (← slebFrom 5 0 0).toInt32

/-- An unsigned LEB128 number less one, so that zero encodes the absent value -1. -/
def uleb128p1 : Read Int := do return (← uleb128).toNat - 1

def times {α : Type} (read : Read α) : Nat → Read (List α)
  | 0 => pure []
  | n + 1 => do
    let head ← read
    let rest ← times read n
    return head :: rest

end Read

end DexLift.Dex
