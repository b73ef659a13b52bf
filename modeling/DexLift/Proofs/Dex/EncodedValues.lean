import DexLift.Proofs.Dex.Leb128

/-!
# Constant values as they are written

A value is written as a byte with its kind and a small argument, and what the kind
asks for: the bytes of a number or of an index, the elements of an array, the type
and the named arguments of an annotation. A number may take fewer bytes than its
kind has room for, as long as the ones that are left out can be told: the sign bits
of an integer, the zeros above a character, the zeros below a floating-point value.
Nothing forces the writer to leave them out, and an index or a count may be longer
than it has to be as well.

Whatever the writer chose, a tree of values is read back as it was, when it does not
nest deeper than the reader goes, and the reader stops right behind it.
-/

namespace DexLift.Dex

open List Read

/-! ## Numbers -/

variable {count arg : Nat} {bits : UInt64} {index : UInt32} {v : Value} {bytes : List UInt8}
  {vs : List Value} {es : List (Text × Value)} {type : Text}

namespace NumberKind

/-- The bytes of a number when none is left out; a truth value has none of its own. -/
def width : NumberKind → Nat
  | byte => 1 | short => 2 | char => 2 | int => 4 | long => 8
  | float => 4 | double => 8 | methodType => 4 | methodHandle => 4 | boolean => 0

def Fits (kind : NumberKind) (count : Nat) (bits : UInt64) : Prop :=
  match kind with
  | byte | short | int | long => SignedIn (8 * count) bits.toInt64.toInt
  | char | methodType | methodHandle => bits.toNat < 256 ^ count
  | float | double =>
    bits.toNat < 256 ^ kind.width ∧ 256 ^ (kind.width - count) ∣ bits.toNat
  | boolean => bits < 2

def written (kind : NumberKind) (count : Nat) (bits : UInt64) : Int :=
  match kind with
  | byte | short | int | long => bits.toInt64.toInt
  | char | methodType | methodHandle => bits.toNat
  | float | double => bits.toNat / 256 ^ (kind.width - count)
  | boolean => 0

end NumberKind

/-! ## What is written for a value -/

/-- The byte in front of a value: its tag and an argument below eight. -/
def headByte (tag arg : Nat) : UInt8 := UInt8.ofNat (tag + 32 * arg)

/-- The bytes of an index: one more than the argument says. -/
def indexBytes (arg : Nat) (index : UInt32) : List UInt8 :=
  Table.littleEndian (arg + 1) index.toNat

/-- An index can be told from its bytes. -/
def IndexFits (arg : Nat) (index : UInt32) : Prop := arg < 4 ∧ index.toNat < 256 ^ (arg + 1)

/-- Bytes that spell a number of 32 bits, up to five of them. -/
def Spells (bytes : List UInt8) (n : UInt32) : Prop := Leb128 bytes n.toNat ∧ bytes.length ≤ 5

variable (f : File)

mutual

/-- What may be written for a value, where strings, types and members are those of a file. -/
inductive File.Writes : Value → List UInt8 → Prop where
  | number {kind : NumberKind} {bits : UInt64} {arg : Nat} (room : arg < kind.width)
    (fits : kind.Fits (arg + 1) bits) :
    File.Writes (.number kind bits)
      (headByte kind.tag arg :: Table.littleEndian (arg + 1) (kind.written (arg + 1) bits))
  | boolean {bits : UInt64} (small : bits < 2) :
    File.Writes (.number .boolean bits) [headByte 0x1f bits.toNat]
  | string {text : Text} {arg : Nat} {index : UInt32} (fits : IndexFits arg index)
    (found : f.string index = .ok text) :
    File.Writes (.string text) (headByte 0x17 arg :: indexBytes arg index)
  | type {desc : Text} {arg : Nat} {index : UInt32} (fits : IndexFits arg index)
    (found : f.type index = .ok desc) :
    File.Writes (.type desc) (headByte 0x18 arg :: indexBytes arg index)
  | field {ref : FieldRef} {arg : Nat} {index : UInt32} (fits : IndexFits arg index)
    (found : f.field index = .ok ref) :
    File.Writes (.field ref) (headByte 0x19 arg :: indexBytes arg index)
  | method {ref : MethodRef} {arg : Nat} {index : UInt32} (fits : IndexFits arg index)
    (found : f.method index = .ok ref) :
    File.Writes (.method ref) (headByte 0x1a arg :: indexBytes arg index)
  | enum {ref : FieldRef} {arg : Nat} {index : UInt32} (fits : IndexFits arg index)
    (found : f.field index = .ok ref) :
    File.Writes (.enum ref) (headByte 0x1b arg :: indexBytes arg index)
  | array {elements : List Value} {bytes : List UInt8} (written : File.WritesArray elements bytes) :
    File.Writes (.array elements) (headByte 0x1c 0 :: bytes)
  | nested {type : Text} {elements : List (Text × Value)} {bytes : List UInt8}
    (written : File.WritesAnnotation type elements bytes) :
    File.Writes (.nested type elements) (headByte 0x1d 0 :: bytes)
  | null : File.Writes .null [headByte 0x1e 0]

/-- What may be written for the elements of an array: their number and each of them. -/
inductive File.WritesArray : List Value → List UInt8 → Prop where
  | counted {elements : List Value} {n : UInt32} {count bytes : List UInt8}
    (spells : Spells count n) (length : elements.length = n.toNat)
    (each : File.WritesEach elements bytes) :
    File.WritesArray elements (count ++ bytes)

/-- What may be written for an annotation: its type, the number of its arguments and each of them.
-/
inductive File.WritesAnnotation : Text → List (Text × Value) → List UInt8 → Prop where
  | counted {type : Text} {elements : List (Text × Value)} {index n : UInt32}
    {name count bytes : List UInt8} (spelled : Spells name index) (found : f.type index = .ok type)
    (spells : Spells count n) (length : elements.length = n.toNat)
    (each : File.WritesNamed elements bytes) :
    File.WritesAnnotation type elements (name ++ (count ++ bytes))

/-- What may be written for some values in a row. -/
inductive File.WritesEach : List Value → List UInt8 → Prop where
  | nil : File.WritesEach [] []
  | cons {v : Value} {rest : List Value} {first others : List UInt8} (one : File.Writes v first)
    (more : File.WritesEach rest others) : File.WritesEach (v :: rest) (first ++ others)

/-- What may be written for some arguments in a row: the index of the name, and the value. -/
inductive File.WritesNamed : List (Text × Value) → List UInt8 → Prop where
  | nil : File.WritesNamed [] []
  | cons {name : Text} {v : Value} {rest : List (Text × Value)} {index : UInt32}
    {spelling first others : List UInt8} (spells : Spells spelling index)
    (found : f.string index = .ok name) (one : File.Writes v first)
    (more : File.WritesNamed rest others) :
    File.WritesNamed ((name, v) :: rest) (spelling ++ first ++ others)

end

/-! ## Trees that may be written -/

namespace Value

mutual

def depth : Value → Nat
  | array elements => depthEach elements
  | nested _ elements => depthNamed elements
  | _ => 0

/-- How deep some values nest, themselves included. -/
def depthEach : List Value → Nat
  | [] => 0
  | v :: rest => max (depth v + 1) (depthEach rest)

/-- How deep the values of some arguments nest, themselves included. -/
def depthNamed : List (Text × Value) → Nat
  | [] => 0
  | (_, v) :: rest => max (depth v + 1) (depthNamed rest)

end

end Value

mutual

/-- The strings, types and members of a value are those of a file, and numbers and counts are in
their range. -/
def File.Holds : Value → Prop
  | .number kind bits => kind.Fits kind.width bits
  | .string text => ∃ index, f.string index = .ok text
  | .type desc => ∃ index, f.type index = .ok desc
  | .field ref => ∃ index, f.field index = .ok ref
  | .method ref => ∃ index, f.method index = .ok ref
  | .enum ref => ∃ index, f.field index = .ok ref
  | .array elements => elements.length < 2 ^ 32 ∧ File.HoldsEach elements
  | .nested type elements => (∃ index, f.type index = .ok type) ∧ elements.length < 2 ^ 32 ∧
    File.HoldsNamed elements
  | .null => True

/-- The same of every one of some values. -/
def File.HoldsEach : List Value → Prop
  | [] => True
  | v :: rest => File.Holds v ∧ File.HoldsEach rest

/-- The same of some arguments and of their names. -/
def File.HoldsNamed : List (Text × Value) → Prop
  | [] => True
  | (name, v) :: rest =>
    ((∃ index, f.string index = .ok name) ∧ File.Holds v) ∧ File.HoldsNamed rest

end

/-! ## Reading the parts -/

theorem littleEndian_written (count : Nat) (n : Int) :
    littleEndian (Table.littleEndian count n) = (n % 2 ^ (8 * count)).toNat := by
  have folded : ∀ bytes, littleEndian bytes =
      bytes.foldr (fun b rest => b.toNat + 256 * rest) 0 := by
    intro bytes
    induction bytes with
    | nil => rfl
    | cons b bytes ih => rw [littleEndian, ih]; rfl
  rw [folded, Table.foldr_littleEndian]

theorem littleEndian_toNat {n : Nat} (fits : n < 256 ^ count) :
    littleEndian (Table.littleEndian count n) = n := by
  have power : (2 : Int) ^ (8 * count) = (256 ^ count : Nat) := by
    rw [Nat.cast_pow, Int.pow_mul]
    rfl
  rw [littleEndian_written, power, ← Int.natCast_mod, Int.toNat_natCast, Nat.mod_eq_of_lt fits]

theorem extendSign_written (fits : SignedIn (8 * count) bits.toInt64.toInt) :
    extendSign count (littleEndian (Table.littleEndian count bits.toInt64.toInt)) = bits := by
  rw [extendSign, littleEndian_written, Nat.one_shiftLeft, fits.bmod_toNat, Int64.ofInt_toInt]
  rfl

theorem floatBits_written {full : Nat} (narrow : count ≤ full) (small : bits.toNat < 256 ^ full)
    (zeros : 256 ^ (full - count) ∣ bits.toNat) :
    floatBits full (Table.littleEndian count (bits.toNat / 256 ^ (full - count) : Nat)) = bits := by
  have lead : bits.toNat / 256 ^ (full - count) < 256 ^ count := by
    rwa [Nat.div_lt_iff_lt_mul (by positivity), ← Nat.pow_add, Nat.add_sub_cancel' narrow]
  have power : 2 ^ (8 * (full - count)) = 256 ^ (full - count) := Nat.pow_mul 2 8 _
  rw [floatBits, littleEndian_toNat lead, length_littleEndian, Nat.shiftLeft_eq, power,
    Nat.div_mul_cancel zeros, UInt64.ofNat_toNat]

theorem make_found {α : Type} {outcome : Outcome α} {a : α} (found : outcome = .ok a)
    (make : α → Value) : (do return make (← outcome) : Outcome Value) = .ok (make a) := by
  rw [found]
  rfl

namespace Read.Takes

variable {kind : NumberKind} {bits : UInt64} {arg : Nat}

theorem written (count : Nat) (n : Int) :
    (Read.bytes ((count + 1 : Nat) : Int)).Takes (Table.littleEndian (count + 1) n)
      (Table.littleEndian (count + 1) n) := by
  have some : Table.littleEndian (count + 1) n ≠ [] := cons_ne_nil _ _
  have takes := bytes some
  rwa [length_littleEndian] at takes

theorem value {found : UInt64} (same : found = bits) :
    (Pure.pure (.number kind found) : Read Value).Takes [] (.number kind bits) :=
  same ▸ pure _

theorem number (room : arg < kind.width) (fits : kind.Fits (arg + 1) bits) :
    (readNumber kind (arg + 1)).Takes
      (Table.littleEndian (arg + 1) (kind.written (arg + 1) bits)) (.number kind bits) := by
  refine (written arg _).bind_nil ?_
  cases kind with
  | byte | short | int | long => exact value (extendSign_written fits)
  | char => exact value ((congrArg UInt64.ofNat (littleEndian_toNat fits)).trans UInt64.ofNat_toNat)
  | float | double =>
    exact of_not (Nat.not_lt.mpr room) (value (floatBits_written room fits.1 fits.2))
  | methodType | methodHandle =>
    have small : bits.toNat < 0x100000000 :=
      lt_of_lt_of_le fits (Nat.pow_le_pow_right (by decide) room)
    refine value ?_
    rw [NumberKind.written, littleEndian_toNat fits, Nat.mod_eq_of_lt small, UInt64.ofNat_toNat]
  | boolean => cases room

theorem indexed {find : UInt32 → Outcome Value} (fits : IndexFits arg index)
    (found : find index = .ok v) : (readIndexed (arg + 1) find).Takes (indexBytes arg index) v := by
  refine (written arg _).bind_nil (lift ?_)
  rwa [littleEndian_toNat fits.2, UInt32.ofNat_toNat]

theorem spelled {n : UInt32} (spells : Spells bytes n) : uleb128.Takes bytes n := by
  have takes := uleb128_takes spells.1 spells.2
  rwa [UInt32.ofNat_toNat] at takes

end Read.Takes

/-! ## The byte in front -/

theorem tag_headByte {tag : Nat} (small : tag < 32) (few : arg < 8) :
    (headByte tag arg &&& 0x1f).toNat = tag := by
  have whole : (headByte tag arg).toNat = tag + 32 * arg :=
    UInt8.toNat_ofNat_of_lt' (by change _ < 256; omega)
  rw [UInt8.toNat_and, whole]
  refine (Nat.and_two_pow_sub_one_eq_mod _ 5).trans ?_
  omega

theorem arg_headByte {tag : Nat} (small : tag < 32) (few : arg < 8) :
    (headByte tag arg >>> 5).toNat = arg := by
  have whole : (headByte tag arg).toNat = tag + 32 * arg :=
    UInt8.toNat_ofNat_of_lt' (by change _ < 256; omega)
  rw [UInt8.toNat_shiftRight, whole]
  refine (Nat.shiftRight_eq_div_pow _ 5).trans ?_
  omega

theorem IndexFits.arg_lt (fits : IndexFits arg index) : arg < 8 :=
  lt_trans fits.1 (by decide)

theorem NumberKind.tag_lt (kind : NumberKind) : kind.tag < 32 := by
  cases kind <;> decide

theorem NumberKind.width_eq_zero {kind : NumberKind} : kind.width = 0 ↔ kind = .boolean := by
  cases kind <;> decide

theorem NumberKind.width_le (kind : NumberKind) : kind.width ≤ 8 := by
  cases kind <;> decide

/-! ## Reading values -/

namespace File

variable {f} {levels : Nat}

theorem Writes.some (writes : f.Writes v bytes) : 1 ≤ bytes.length := by
  cases writes <;> exact Nat.le_add_left 1 _

theorem WritesEach.length_le (writes : f.WritesEach vs bytes) : vs.length ≤ bytes.length := by
  induction vs generalizing bytes with
  | nil => exact Nat.zero_le _
  | cons v rest ih =>
    cases writes with
    | cons one more =>
      have first := one.some
      have others := ih more
      rw [length_cons, length_append]
      omega

theorem WritesNamed.length_le (writes : f.WritesNamed es bytes) : es.length ≤ bytes.length := by
  induction es generalizing bytes with
  | nil => exact Nat.zero_le _
  | cons e rest ih =>
    cases writes with
    | cons spells found one more =>
      have first := one.some
      have others := ih more
      rw [length_cons, length_append, length_append]
      omega

section Items

variable {item : Read Value}
  (items : ∀ v bytes, f.Writes v bytes → v.depth < levels → item.Takes bytes v)
include items

theorem WritesEach.takes (writes : f.WritesEach vs bytes) (shallow : Value.depthEach vs ≤ levels) :
    (times item vs.length).Takes bytes vs := by
  induction vs generalizing bytes with
  | nil =>
    cases writes
    exact .times_zero
  | cons v rest ih =>
    cases writes with
    | cons one more =>
      obtain ⟨here, there⟩ := max_le_iff.mp shallow
      exact (items v _ one here).times_succ (ih more there)

theorem WritesNamed.takes (writes : f.WritesNamed es bytes) (shallow : Value.depthNamed es ≤ levels) :
    (times (do
      let name ← lift (f.string (← uleb128))
      let value ← item
      return (name, value)) es.length).Takes bytes es := by
  induction es generalizing bytes with
  | nil =>
    cases writes
    exact .times_zero
  | cons e rest ih =>
    cases writes with
    | @cons name v _ index spelling first others spells found one more =>
      obtain ⟨here, there⟩ := max_le_iff.mp shallow
      have named : (do
          let name ← lift (f.string (← uleb128))
          let value ← item
          return (name, value) : Read (Text × Value)).Takes (spelling ++ first) (name, v) :=
        (Takes.spelled spells).bind
          ((Takes.lift found).bind ((items v _ one here).bind_nil (.pure _)))
      exact named.times_succ (ih more there)

/-- An array is read from whatever was written for it. -/
theorem WritesArray.takes (writes : f.WritesArray vs bytes) (shallow : Value.depthEach vs ≤ levels) :
    (readArray item).Takes bytes vs := by
  cases writes with
  | counted spells length each =>
    refine (Takes.spelled spells).bind ?_
    rw [← length]
    exact (each.takes items shallow).within each.length_le

/-- An annotation is read from whatever was written for it. -/
theorem WritesAnnotation.takes (writes : f.WritesAnnotation type es bytes)
    (shallow : Value.depthNamed es ≤ levels) :
    (f.readAnnotationBody item).Takes bytes (type, es) := by
  cases writes with
  | counted spelled found spells length each =>
    refine (Takes.spelled spelled).bind ?_
    refine (Takes.lift found).bind ((Takes.spelled spells).bind ?_)
    rw [← length]
    refine Takes.within ?_ each.length_le
    exact (each.takes items shallow).bind_nil (.pure _)

end Items

/-- A value is read from whatever was written for it when it does not nest deeper than the reader
goes. -/
theorem Writes.takes (writes : f.Writes v bytes) (shallow : v.depth < levels) :
    (f.readValue levels).Takes bytes v := by
  induction levels generalizing v bytes with
  | zero => cases shallow
  | succ levels ih =>
    have items : ∀ v bytes, f.Writes v bytes → v.depth < levels →
        (f.readValue levels).Takes bytes v := fun _ _ => ih
    have inner := Nat.le_of_lt_succ shallow
    unfold readValue
    cases writes with
    | @number kind bits arg room fits =>
      have few := lt_of_lt_of_le room kind.width_le
      have number := Takes.number room fits
      refine (Takes.byte _).bind ?_
      rw [tag_headByte kind.tag_lt few, arg_headByte kind.tag_lt few]
      cases kind with
      | boolean => cases room
      | _ => exact number
    | @boolean bits small =>
      have few : bits.toNat < 8 := lt_trans small (by decide)
      refine (Takes.byte _).bind_nil ?_
      rw [tag_headByte (by decide) few, arg_headByte (by decide) few]
      exact .value UInt64.ofNat_toNat
    | string fits found | type fits found | field fits found | method fits found
    | enum fits found =>
      refine (Takes.byte _).bind ?_
      rw [tag_headByte (by decide) fits.arg_lt, arg_headByte (by decide) fits.arg_lt]
      exact .indexed fits (make_found found _)
    | array written | nested written =>
      refine (Takes.byte _).bind ?_
      rw [tag_headByte (by decide) (by decide)]
      exact (written.takes items inner).bind_nil (.pure _)
    | null =>
      refine (Takes.byte _).bind_nil ?_
      rw [tag_headByte (by decide) (by decide)]
      exact .pure _

/-! ## Every tree has something that may be written for it -/

theorem exists_spelling (n : UInt32) : ∃ bytes, Spells bytes n :=
  exists_leb128 4 (lt_trans n.toNat_lt (by decide))

theorem exists_count {n : Nat} (small : n < 2 ^ 32) :
    ∃ (bytes : List UInt8) (k : UInt32), Spells bytes k ∧ n = k.toNat := by
  obtain ⟨bytes, spells⟩ := exists_spelling (UInt32.ofNat n)
  exact ⟨bytes, _, spells, (UInt32.toNat_ofNat_of_lt' small).symm⟩

theorem indexFits (index : UInt32) : IndexFits 3 index := ⟨by decide, index.toNat_lt⟩

section Items

variable (items : ∀ v : Value, v.depth < levels → f.Holds v → ∃ bytes, f.Writes v bytes)
include items

theorem exists_each (holds : f.HoldsEach vs) (shallow : Value.depthEach vs ≤ levels) :
    ∃ bytes, f.WritesEach vs bytes := by
  induction vs with
  | nil => exact ⟨_, .nil⟩
  | cons v rest ih =>
    obtain ⟨here, there⟩ := max_le_iff.mp shallow
    obtain ⟨first, one⟩ := items v here holds.1
    obtain ⟨others, more⟩ := ih holds.2 there
    exact ⟨_, .cons one more⟩

theorem exists_named (holds : f.HoldsNamed es) (shallow : Value.depthNamed es ≤ levels) :
    ∃ bytes, f.WritesNamed es bytes := by
  induction es with
  | nil => exact ⟨_, .nil⟩
  | cons e rest ih =>
    obtain ⟨⟨⟨index, found⟩, held⟩, later⟩ := holds
    obtain ⟨here, there⟩ := max_le_iff.mp shallow
    obtain ⟨spelling, spells⟩ := exists_spelling index
    obtain ⟨first, one⟩ := items e.2 here held
    obtain ⟨others, more⟩ := ih later there
    exact ⟨_, .cons spells found one more⟩

theorem exists_writesArray (holds : f.Holds (.array vs)) (shallow : Value.depthEach vs ≤ levels) :
    ∃ bytes, f.WritesArray vs bytes := by
  obtain ⟨few, held⟩ := holds
  obtain ⟨count, n, spells, length⟩ := exists_count few
  obtain ⟨bytes, each⟩ := exists_each items held shallow
  exact ⟨_, .counted spells length each⟩

theorem exists_writes_nested (holds : f.Holds (.nested type es))
    (shallow : Value.depthNamed es ≤ levels) : ∃ bytes, f.WritesAnnotation type es bytes := by
  obtain ⟨⟨index, found⟩, few, held⟩ := holds
  obtain ⟨name, spelled⟩ := exists_spelling index
  obtain ⟨count, n, spells, length⟩ := exists_count few
  obtain ⟨bytes, each⟩ := exists_named items held shallow
  exact ⟨_, .counted spelled found spells length each⟩

end Items

theorem exists_writes (shallow : v.depth < levels) (holds : f.Holds v) :
    ∃ bytes, f.Writes v bytes := by
  induction levels generalizing v with
  | zero => cases shallow
  | succ levels ih =>
    have items : ∀ v : Value, v.depth < levels → f.Holds v → ∃ bytes, f.Writes v bytes :=
      fun _ => ih
    have inner := Nat.le_of_lt_succ shallow
    cases v with
    | number kind bits =>
      by_cases truth : kind = .boolean
      · subst truth
        exact ⟨_, .boolean holds⟩
      · obtain ⟨arg, full⟩ :=
          Nat.exists_eq_succ_of_ne_zero (mt NumberKind.width_eq_zero.mp truth)
        have fits : kind.Fits kind.width bits := holds
        rw [full] at fits
        exact ⟨_, .number (full ▸ Nat.lt_succ_self arg) fits⟩
    | string text =>
      obtain ⟨index, found⟩ := holds
      exact ⟨_, .string (indexFits index) found⟩
    | type desc =>
      obtain ⟨index, found⟩ := holds
      exact ⟨_, .type (indexFits index) found⟩
    | field ref =>
      obtain ⟨index, found⟩ := holds
      exact ⟨_, .field (indexFits index) found⟩
    | method ref =>
      obtain ⟨index, found⟩ := holds
      exact ⟨_, .method (indexFits index) found⟩
    | enum ref =>
      obtain ⟨index, found⟩ := holds
      exact ⟨_, .enum (indexFits index) found⟩
    | array elements =>
      obtain ⟨bytes, written⟩ := exists_writesArray items holds inner
      exact ⟨_, .array written⟩
    | nested type elements =>
      obtain ⟨bytes, written⟩ := exists_writes_nested items holds inner
      exact ⟨_, .nested written⟩
    | null => exact ⟨_, .null⟩

/-- For a tree of values that nests no deeper than the reader goes, whose strings, types and members
are those of the file, there is something that may be written; and whatever was written, the tree
is read back from it, and the reader stops right behind it. The same holds of the elements of an
array and of an annotation that stand alone. -/
theorem values_read_back (f : File) (levels : Nat) :
    (∀ v : Value, f.Holds v → v.depth < levels →
      (∃ bytes, f.Writes v bytes) ∧
      ∀ bytes, f.Writes v bytes → (f.readValue levels).Takes bytes v) ∧
    (∀ elements, f.Holds (.array elements) → Value.depthEach elements ≤ levels →
      (∃ bytes, f.WritesArray elements bytes) ∧
      ∀ bytes, f.WritesArray elements bytes →
        (readArray (f.readValue levels)).Takes bytes elements) ∧
    ∀ type elements, f.Holds (.nested type elements) → Value.depthNamed elements ≤ levels →
      (∃ bytes, f.WritesAnnotation type elements bytes) ∧
      ∀ bytes, f.WritesAnnotation type elements bytes →
        (f.readAnnotationBody (f.readValue levels)).Takes bytes (type, elements) := by
  have write : ∀ v : Value, v.depth < levels → f.Holds v → ∃ bytes, f.Writes v bytes :=
    fun _ => exists_writes
  have read : ∀ v bytes, f.Writes v bytes → v.depth < levels →
      (f.readValue levels).Takes bytes v := fun _ _ => Writes.takes
  refine ⟨fun v holds shallow => ⟨write v shallow holds, fun bytes written => ?_⟩,
    fun elements holds shallow => ⟨exists_writesArray write holds shallow, fun bytes written => ?_⟩,
    fun type elements holds shallow =>
      ⟨exists_writes_nested write holds shallow, fun bytes written => ?_⟩⟩
  · exact read v bytes written shallow
  · exact written.takes read shallow
  · exact written.takes read shallow

def oneField : File where
  header :=
    { version := "035", checksum := 0, fileSize := 8, headerSize := 0, strings := ⟨2, 0⟩,
      types := ⟨1, 0⟩, protos := ⟨0, 0⟩, fields := ⟨1, 0⟩, methods := ⟨0, 0⟩, classes := ⟨0, 0⟩,
      data := ⟨0, 0⟩ }
  options := {}
  diagnostics := []
  data := ⟨#[0, 0, 0, 0, 1, 0, 0, 0]⟩
  strings := #["LA;", "x"]
  types := #["LA;"]

/-- Numbers of which bytes are left out, and a field. -/
def someValues : List Value :=
  [.number .int 0xfffffffffffffffe, .number .char 0x20ac, .number .float 0x3f800000,
    .number .boolean 1, .field ⟨"LA;", "x", "LA;"⟩, .array []]

/-- The index of the type and the one of the field are longer than they have to be. -/
def someBytes : List UInt8 :=
  [0x06, 0x04, 0xfe, 0x23, 0xac, 0x20, 0x30, 0x80, 0x3f, 0x3f, 0x39, 0x00, 0x00, 0x1c, 0x00]

theorem values_read_back_oneField :
    let bytes := [0x80, 0x00, 0x01, 0x01, 0x1c] ++ someBytes
    oneField.Holds (.nested "LA;" [("x", .array someValues)]) ∧
    oneField.WritesArray someValues someBytes ∧
    oneField.WritesAnnotation "LA;" [("x", .array someValues)] bytes ∧
    oneField.Writes (.nested "LA;" [("x", .array someValues)]) (0x1d :: bytes) ∧
    (readArray (oneField.readValue 1)).Takes someBytes someValues ∧
    (oneField.readAnnotationBody oneField.readOuterValue).Takes bytes
      ("LA;", [("x", .array someValues)]) ∧
    (oneField.readValue 3).Takes (0x1d :: bytes) (.nested "LA;" [("x", .array someValues)]) := by
  intro bytes
  have string : oneField.string 1 = .ok "x" := rfl
  have type : oneField.type 0 = .ok "LA;" := rfl
  have field : oneField.field 0 = .ok ⟨"LA;", "x", "LA;"⟩ := rfl
  have six : Spells [0x06] 6 := ⟨.last (by decide), by decide⟩
  have zero : Spells [0x00] 0 := ⟨.last (by decide), by decide⟩
  have one : Spells [0x01] 1 := ⟨.last (by decide), by decide⟩
  have long : Spells [0x80, 0x00] 0 := ⟨.more (by decide) (.last (by decide)), by decide⟩
  have minusTwo : SignedIn 8 (0xfffffffffffffffe : UInt64).toInt64.toInt := by decide
  have int : oneField.Writes (.number .int 0xfffffffffffffffe) [0x04, 0xfe] :=
    .number (show 0 < NumberKind.int.width by decide) minusTwo
  have char : oneField.Writes (.number .char 0x20ac) [0x23, 0xac, 0x20] :=
    .number (show 1 < NumberKind.char.width by decide) (show 0x20ac < 256 ^ 2 by decide)
  have float : oneField.Writes (.number .float 0x3f800000) [0x30, 0x80, 0x3f] :=
    .number (show 1 < NumberKind.float.width by decide) ⟨by decide, by decide⟩
  have truth : oneField.Writes (.number .boolean 1) [0x3f] := .boolean (by decide)
  have member : oneField.Writes (.field ⟨"LA;", "x", "LA;"⟩) [0x39, 0x00, 0x00] :=
    .field ⟨show 1 < 4 by decide, by decide⟩ field
  have empty : oneField.Writes (.array []) [0x1c, 0x00] := .array (.counted zero rfl .nil)
  have array : oneField.WritesArray someValues someBytes :=
    .counted six rfl (.cons int (.cons char (.cons float (.cons truth (.cons member
      (.cons empty .nil))))))
  have value : oneField.Writes (.array someValues) (0x1c :: someBytes) := .array array
  have named : oneField.WritesNamed [("x", .array someValues)] (0x01 :: 0x1c :: someBytes) :=
    .cons one string value .nil
  have annotation : oneField.WritesAnnotation "LA;" [("x", .array someValues)] bytes :=
    .counted long type one rfl named
  have held : oneField.HoldsEach someValues :=
    ⟨show SignedIn 32 (-2) by decide, show 0x20ac < 256 ^ 2 by decide, ⟨by decide, by decide⟩,
      show (1 : UInt64) < 2 by decide, ⟨0, field⟩, ⟨by decide, trivial⟩, trivial⟩
  have holds : oneField.Holds (.nested "LA;" [("x", .array someValues)]) :=
    ⟨⟨0, type⟩, by decide, ⟨⟨1, string⟩, by decide, held⟩, trivial⟩
  obtain ⟨values, -⟩ := values_read_back oneField 3
  obtain ⟨-, arrays, -⟩ := values_read_back oneField 1
  obtain ⟨-, -, annotations⟩ := values_read_back oneField 33
  exact ⟨holds, array, annotation, .nested annotation,
    (arrays someValues ⟨by decide, held⟩ (by decide)).2 someBytes array,
    (annotations "LA;" _ holds (by decide)).2 bytes annotation,
    (values _ holds (by decide)).2 _ (.nested annotation)⟩

end File

end DexLift.Dex
