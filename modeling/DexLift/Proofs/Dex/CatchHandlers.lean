import DexLift.Proofs.Dex.Bounds

/-!
# Tries and their handler lists as they stand in a file

A try item says where its range begins, how long it is and where its handler list
lies behind the items. A handler list begins with a signed number: so many typed
clauses follow, and when it is not positive, a clause that catches everything comes
behind them. What is read of the tries of a code item are the items and lists that
stand there, several items may share one list, and nothing is left out.

There are two limits, both from numbers of 32 bits. The end of a range is taken
modulo what they hold. And the least number they hold is its own negation, so that a
list of that size, which no file could hold, passes for one without typed clauses.
-/

namespace DexLift.Dex

open List Read

/-! ## What stands in the file -/

variable {bs : List UInt8} {α : Type} {item : UInt32 × UInt16 × UInt16} {count : Nat}

def tryItem (start : UInt32) (length offset : UInt16) : List UInt8 :=
  Table.littleEndian 4 start.toNat ++ (Table.littleEndian 2 length.toNat ++
    Table.littleEndian 2 offset.toNat)

/-- Typed clauses one after another: the index of a type, and an address. -/
inductive File.Clauses (f : File) : List Handler → List UInt8 → Prop where
  | nil : f.Clauses [] []
  | cons {handler : Handler} {rest : List Handler} {index addr others : List UInt8} {n m : Nat}
    (type : Leb128 index n) (found : f.type (UInt32.ofNat n) = .ok handler.type)
    (place : Leb128 addr m) (at_ : handler.addr = UInt32.ofNat m) (more : f.Clauses rest others) :
    f.Clauses (handler :: rest) (index ++ (addr ++ others))

/-- How many typed clauses are read for a size. -/
def clauseCount (size : Int32) : Nat := if size = Int32.minValue then 0 else size.toInt.natAbs

def File.HandlersAt (f : File) (c : Cursor) (size : Int32) (handlers : List Handler) : Prop :=
  ∃ (spelling clauses last : List UInt8) (n : Int) (typed : List Handler),
    c.Ahead (spelling ++ (clauses ++ last)) ∧ Sleb128 spelling n ∧ size = Int32.ofInt n ∧
    f.Clauses typed clauses ∧ typed.length = clauseCount size ∧
    if 0 < size.toInt then last = [] ∧ handlers = typed
    else ∃ m, Leb128 last m ∧ handlers = typed ++ [{ type := ∅, addr := UInt32.ofNat m }]

/-! ## Reading the items -/

theorem Table.littleEndian_of_bytes (bytes : List UInt8) :
    Table.littleEndian bytes.length (Read.littleEndian bytes) = bytes := by
  induction bytes with
  | nil => rfl
  | cons b bytes ih =>
    have byte := b.toNat_lt
    have low : ((Read.littleEndian (b :: bytes) : Int) % 2 ^ 8).toNat = b.toNat := by
      rw [Read.littleEndian]
      omega
    have high : (Read.littleEndian (b :: bytes) : Int) / 2 ^ 8 = Read.littleEndian bytes := by
      rw [Read.littleEndian]
      omega
    rw [length_cons, Table.littleEndian, low, high, ih, UInt8.ofNat_toNat]

namespace Read

theorem toNat_u16 (length : bs.length = 2) :
    Table.littleEndian 2 (UInt16.ofNat (littleEndian bs)).toNat = bs := by
  rw [UInt16.toNat_ofNat_of_lt' (littleEndian_lt_of_length length), ← length]
  exact Table.littleEndian_of_bytes bs

theorem toNat_u32 (length : bs.length = 4) :
    Table.littleEndian 4 (UInt32.ofNat (littleEndian bs)).toNat = bs := by
  rw [UInt32.toNat_ofNat_of_lt' (littleEndian_lt_of_length length), ← length]
  exact Table.littleEndian_of_bytes bs

end Read

def checkedTryItem : Read (UInt32 × UInt16 × UInt16) := do
  let start ← Read.u32
  let length ← Read.u16
  let handlers ← Read.u16.recast .codeItem fun _ => "try items"
  return (start, length, handlers)

theorem Read.heeds_readTryItem : Heeds 0 8 checkedTryItem File.readTryItem :=
  sized_u32.heeds_orElse_bind 0 (by decide) (by decide) fun _ =>
    sized_u16.heeds_orElse_bind 0 (by decide) (by decide) fun _ =>
      (sized_u16.heeds.recast _ _).bind fun _ => .lift (.ok _)

theorem ahead_of_readTryItem {c after : Cursor} (done : File.readTryItem c = (.ok item, after)) :
    c.Ahead (tryItem item.1 item.2.1 item.2.2) ∧ after = c.past 8 := by
  obtain ⟨done, rfl, -⟩ := heeds_readTryItem c (Nat.zero_le _) item after done
  obtain ⟨start, second, readStart, done⟩ := bind_eq_ok done
  obtain ⟨length, third, readLength, done⟩ := bind_eq_ok done
  obtain ⟨offset, last, readOffset, done⟩ := bind_eq_ok done
  obtain ⟨bs, four, aheadStart, rfl, rfl⟩ := sized_u32.takes readStart
  obtain ⟨bs', two, aheadLength, rfl, rfl⟩ := sized_u16.takes readLength
  obtain ⟨bs'', two', aheadOffset, rfl, -⟩ := sized_u16.takes (recast_eq_ok readOffset)
  cases done
  refine ⟨?_, rfl⟩
  rw [tryItem, toNat_u32 four, toNat_u16 two, toNat_u16 two']
  exact aheadStart.append (four ▸ aheadLength.append (two ▸ aheadOffset))

theorem ahead_of_times_readTryItem {c after : Cursor} {items : List (UInt32 × UInt16 × UInt16)}
    (done : times File.readTryItem count c = (.ok items, after)) :
    after = c.past (8 * count) ∧ ∀ i item, items[i]? = some item →
      (c.past (8 * i)).Ahead (tryItem item.1 item.2.1 item.2.2) := by
  induction count generalizing c items with
  | zero =>
    cases done
    exact ⟨rfl, by simp⟩
  | succ count ih =>
    obtain ⟨head, middle, first, done⟩ := bind_eq_ok done
    obtain ⟨rest, last, others, done⟩ := bind_eq_ok done
    cases done
    obtain ⟨ahead, rfl⟩ := ahead_of_readTryItem first
    obtain ⟨rfl, behind⟩ := ih others
    refine ⟨by rw [Cursor.past_past, Nat.mul_succ, Nat.add_comm], ?_⟩
    intro i item found
    cases i with
    | zero =>
      cases found
      exact ahead
    | succ i =>
      have later := behind i item found
      rwa [Cursor.past_past, Nat.add_comm, ← Nat.mul_succ] at later

/-! ## Reading a handler list -/

namespace File

variable {f : File} {c after : Cursor}

theorem clauses_of_times {typed : List Handler}
    (done : times (do
      let type ← uleb128
      let addr ← uleb128
      return { type := ← lift (f.type type), addr : Handler }) count c =
        (.ok typed, after)) :
    ∃ bytes, f.Clauses typed bytes ∧ c.Ahead bytes ∧ after = c.past bytes.length := by
  induction count generalizing c typed with
  | zero =>
    cases done
    exact ⟨[], .nil, nil_prefix, rfl⟩
  | succ count ih =>
    obtain ⟨head, middle, first, done⟩ := bind_eq_ok done
    obtain ⟨rest, last, others, done⟩ := bind_eq_ok done
    cases done
    obtain ⟨type, second, readType, first⟩ := bind_eq_ok first
    obtain ⟨addr, third, readAddr, first⟩ := bind_eq_ok first
    obtain ⟨desc, fourth, found, first⟩ := bind_eq_ok first
    cases first
    obtain ⟨listed, rfl⟩ := lift_eq_ok found
    obtain ⟨index, n, spelledType, aheadType, rfl, rfl⟩ := spelled_of_uleb128 readType
    obtain ⟨place, m, spelledAddr, aheadAddr, rfl, rfl⟩ := spelled_of_uleb128 readAddr
    obtain ⟨bytes, clauses, behind, rfl⟩ := ih others
    refine ⟨_, .cons spelledType listed spelledAddr rfl clauses,
      aheadType.append (aheadAddr.append behind), ?_⟩
    simp only [Cursor.past_past, length_append, Nat.add_assoc]

theorem clauseCount_eq (size : Int32) :
    (if size < 0 then -size else size).toInt.toNat = clauseCount size := by
  by_cases least : size = Int32.minValue
  · rw [least]
    decide
  · have lower := size.le_toInt
    have apart : size.toInt ≠ -2 ^ 31 := fun same =>
      least (Int32.toInt_inj.mp (same.trans Int32.toInt_minValue.symm))
    have negated : (-size).toInt = -size.toInt := by
      have upper := size.toInt_lt
      rw [Int32.toInt_neg, Int.bmod_eq_of_le (by omega) (by omega)]
    rw [clauseCount, if_neg least]
    split
    next negative =>
      have below : size.toInt < 0 := Int32.lt_iff_toInt_lt.mp negative
      rw [negated]
      omega
    next positive =>
      have above : ¬ size.toInt < 0 := fun below => positive (Int32.lt_iff_toInt_lt.mpr below)
      omega

theorem handlersAt_of_readHandlers {handlers : List Handler}
    (done : f.readHandlers c = (.ok handlers, after)) : ∃ size, f.HandlersAt c size handlers := by
  obtain ⟨size, second, readSize, done⟩ := bind_eq_ok done
  obtain ⟨typed, third, readTyped, done⟩ := bind_eq_ok done
  obtain ⟨spelling, n, spelled, aheadSize, same, rfl⟩ :=
    spelled_of_sleb128 (recast_eq_ok readSize)
  have length := length_times (congrArg Prod.fst readTyped)
  rw [clauseCount_eq] at length
  obtain ⟨bytes, clauses, aheadClauses, rfl⟩ := clauses_of_times readTyped
  refine ⟨size, ?_⟩
  by_cases open_ : size ≤ 0
  · rw [if_pos open_] at done
    obtain ⟨addr, fourth, readAddr, done⟩ := bind_eq_ok done
    cases done
    obtain ⟨last, m, spelledAddr, aheadAddr, rfl, -⟩ := spelled_of_uleb128 readAddr
    refine ⟨spelling, bytes, last, n, typed, aheadSize.append (aheadClauses.append aheadAddr),
      spelled, same, clauses, length, ?_⟩
    rw [if_neg (by rw [Int32.le_iff_toInt_le] at open_; exact Int.not_lt.mpr open_)]
    exact ⟨m, spelledAddr, rfl⟩
  · rw [if_neg open_] at done
    cases done
    refine ⟨spelling, bytes, [], n, handlers, ?_, spelled, same, clauses, length, ?_⟩
    · rw [append_nil]
      exact aheadSize.append aheadClauses
    · rw [if_pos (by rw [Int32.le_iff_toInt_le] at open_; exact Int.not_le.mp open_)]
      exact ⟨rfl, rfl⟩

/-! ## Reading the tries of a code item -/

def readTry (f : File) (listStart : Nat) (item : UInt32 × UInt16 × UInt16) : Read Try := do
  let handlers ← Read.fromOffset (listStart + item.2.2.toNat) f.readHandlers
  return { start := item.1, stop := item.1 + item.2.1.toUInt32, handlers }

theorem readTry_eq_ok {listStart : Nat} {try_ : Try}
    (done : f.readTry listStart item c = (.ok try_, after)) : after = c ∧
      try_.start = item.1 ∧ try_.stop = item.1 + item.2.1.toUInt32 ∧
      ∃ size, f.HandlersAt (Cursor.ofOffset c.data (listStart + item.2.2.toNat : Nat)) size
        try_.handlers := by
  obtain ⟨handlers, middle, first, done⟩ := bind_eq_ok done
  cases done
  have place : after = c := congrArg Prod.snd first.symm
  have read : (f.readHandlers (Cursor.ofOffset c.data (listStart + item.2.2.toNat : Nat))).1 =
      .ok handlers := congrArg Prod.fst first
  exact ⟨place, rfl, rfl, handlersAt_of_readHandlers (Prod.ext read rfl)⟩

theorem forall₂_of_mapM {β : Type} {read : α → Read β} {items : List α} {found : List β}
    (stays : ∀ item c after b, read item c = (.ok b, after) → after = c)
    (done : items.mapM read c = (.ok found, after)) :
    Forall₂ (fun item b => read item c = (.ok b, c)) items found := by
  induction items generalizing c found with
  | nil =>
    cases done
    exact .nil
  | cons item items ih =>
    rw [mapM_cons] at done
    obtain ⟨b, middle, first, done⟩ := bind_eq_ok done
    obtain ⟨rest, last, others, done⟩ := bind_eq_ok done
    cases done
    obtain rfl := stays item c middle b first
    exact .cons first (ih others)

/-- The tries that are read are the items that stand there, one after another. The range of each
ends where its length says, modulo what 32 bits hold; at its offset behind the items lies a handler
list of some size, with its typed clauses in their order and, when the size is not positive, one
more clause behind them that catches everything. -/
theorem tries_as_they_stand {count : Nat} {tries : List Try}
    (done : f.readTries count c = (.ok tries, after)) :
    tries.length = count ∧ ∀ i try_, tries[i]? = some try_ →
      ∃ (length offset : UInt16) (size : Int32),
        (c.past (8 * i)).Ahead (tryItem try_.start length offset) ∧
        try_.stop.toNat = (try_.start.toNat + length.toNat) % 2 ^ 32 ∧
        f.HandlersAt (Cursor.ofOffset c.data (c.pos + 8 * count + offset.toNat : Nat)) size
          try_.handlers := by
  obtain ⟨items, middle, readItems, done⟩ := Read.bind_eq_ok done
  obtain ⟨start, second, readStart, done⟩ := Read.bind_eq_ok done
  cases readStart
  obtain ⟨rfl, lie⟩ := ahead_of_times_readTryItem readItems
  have length := Read.length_times (congrArg Prod.fst readItems)
  have read : items.mapM (f.readTry (c.pos + 8 * count)) (c.past (8 * count)) =
      (.ok tries, after) := done
  have each := forall₂_of_mapM (fun _ _ _ _ one => (readTry_eq_ok one).1) read
  obtain ⟨same, pairs⟩ := List.forall₂_iff_get.mp each
  refine ⟨same.symm.trans length, ?_⟩
  intro i try_ found
  obtain ⟨inside, rfl⟩ := List.getElem?_eq_some_iff.mp found
  have within : i < items.length := same ▸ inside
  have item := getElem?_eq_getElem within
  obtain ⟨-, start, stop, size, handlers⟩ := readTry_eq_ok (pairs i within inside)
  rw [get_eq_getElem, get_eq_getElem] at start stop
  have ahead := lie i _ item
  refine ⟨items[i].2.1, items[i].2.2, size, start ▸ ahead, ?_, handlers⟩
  rw [start, stop, UInt32.toNat_add, UInt16.toNat_toUInt32]

def oneType : File where
  header :=
    { version := "035", checksum := 0, fileSize := 0, headerSize := 0, strings := ⟨0, 0⟩,
      types := ⟨1, 0⟩, protos := ⟨0, 0⟩, fields := ⟨0, 0⟩, methods := ⟨0, 0⟩, classes := ⟨0, 0⟩,
      data := ⟨0, 0⟩ }
  options := {}
  diagnostics := []
  data := ⟨#[]⟩
  types := #["LA;"]

/-- Three tries: one with a typed clause, and two that share a list that ends with a clause for
everything. -/
def sharedHandlers : ByteArray := ⟨#[
    0, 0, 0, 0, 4, 0, 0, 0, 4, 0, 0, 0, 2, 0, 3, 0, 8, 0, 0, 0, 1, 0, 3, 0, 1, 0, 9, 127, 0, 5, 7]⟩

theorem tries_as_they_stand_shared : ∃ tries after,
    oneType.readTries 3 ⟨sharedHandlers, 0⟩ = (.ok tries, after) ∧
    tries.map (fun t => t.handlers.map fun h => (h.type, h.addr)) =
      ([[("LA;", 9)], [("LA;", 5), (∅, 7)], [("LA;", 5), (∅, 7)]] : List (List (Text × UInt32))) ∧
    tries.length = 3 ∧ ∀ i try_, tries[i]? = some try_ →
      ∃ (length offset : UInt16) (size : Int32),
        (Cursor.past ⟨sharedHandlers, 0⟩ (8 * i)).Ahead (tryItem try_.start length offset) ∧
        try_.stop.toNat = (try_.start.toNat + length.toNat) % 2 ^ 32 ∧
        oneType.HandlersAt (Cursor.ofOffset sharedHandlers (0 + 8 * 3 + offset.toNat : Nat)) size
          try_.handlers := by
  have read : oneType.readTries 3 ⟨sharedHandlers, 0⟩ =
      (.ok [⟨0, 4, [⟨"LA;", 9⟩]⟩, ⟨4, 6, [⟨"LA;", 5⟩, ⟨∅, 7⟩]⟩, ⟨8, 9, [⟨"LA;", 5⟩, ⟨∅, 7⟩]⟩],
        ⟨sharedHandlers, 24⟩) := by
    rfl
  exact ⟨_, _, read, rfl, tries_as_they_stand read⟩

/-- A handler list of the least size, and a range that begins at the last address. -/
def leastSize : ByteArray := ⟨#[255, 255, 255, 255, 2, 0, 0, 0, 128, 128, 128, 128, 120, 5]⟩

/-- The list has no typed clause where its size asks for more than there are bytes in any file, and
the range ends in front of its start. -/
theorem tries_leastSize : ∃ tries after,
    oneType.readTries 1 ⟨leastSize, 0⟩ = (.ok tries, after) ∧
    (Cursor.mk leastSize 8).Ahead [128, 128, 128, 128, 120] ∧
    Sleb128 [128, 128, 128, 128, 120] (-2 ^ 31) ∧
    tries.map (fun t => (t.start, t.stop, t.handlers.map fun h => (h.type, h.addr))) =
      ([(0xffffffff, 1, [(∅, 5)])] : List (UInt32 × UInt32 × List (Text × UInt32))) := by
  have read : oneType.readTries 1 ⟨leastSize, 0⟩ =
      (.ok [⟨0xffffffff, 1, [⟨∅, 5⟩]⟩], ⟨leastSize, 8⟩) := by
    rfl
  refine ⟨_, _, read, ⟨[5], by decide⟩, ?_, rfl⟩
  exact .more (by decide) (.more (by decide) (.more (by decide) (.more (by decide)
    (.last (by decide)))))

end File

end DexLift.Dex
