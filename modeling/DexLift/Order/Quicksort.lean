/-!
# Quicksort that gives up on bad patterns

Sorting in place by swaps only, so the result is always an arrangement of the
input. Short ranges are sorted by insertion. A range that looks ordered gets a
few insertions; one that looks reversed is turned around first. After an
unbalanced division some items are scattered, and when that has happened too
often the rest is sorted by a heap. The order in which equal items end up
follows from these rules.
-/

namespace DexLift

namespace Quicksort

variable {α : Type}

def lessAt (less : α → α → Bool) (items : Array α) (i j : Nat) : Bool :=
  match items[i]?, items[j]? with
  | some x, some y => less x y
  | _, _ => false

/-- Moves the item at `place` down, at most to `bottom`, while it is less than the one below it. -/
def sink (less : α → α → Bool) (bottom : Nat) : (place : Nat) → Array α → Array α
  | 0, items => items
  | place + 1, items =>
    if place ≥ bottom && lessAt less items (place + 1) place then
      sink less bottom place (items.swapIfInBounds (place + 1) place)
    else items

/-- Lets the items from `place` on, `count` of them, change places with the one below while they
are less than it. -/
def rise (less : α → α → Bool) : (count place : Nat) → Array α → Array α
  | 0, _, items => items
  | count + 1, place, items =>
    if lessAt less items place (place - 1) then
      rise less count (place + 1) (items.swapIfInBounds place (place - 1))
    else items

def insertionSort (less : α → α → Bool) (first last : Nat) (items : Array α) : Array α :=
  (List.range' (first + 1) (last - first - 1)).foldl (fun items place =>
    sink less first place items) items

/-- Restores the heap of `size` items that begins at `first`, below `root`; `fuel` bounds the
height. -/
def siftDown (less : α → α → Bool) (first size : Nat) : (fuel root : Nat) → Array α → Array α
  | 0, _, items => items
  | fuel + 1, root, items =>
    let left := 2 * root + 1
    if left ≥ size then items
    else
      let child :=
        if left + 1 < size && lessAt less items (first + left) (first + left + 1) then left + 1
        else left
      if lessAt less items (first + root) (first + child) then
        siftDown less first size fuel child (items.swapIfInBounds (first + root) (first + child))
      else items

def heapSort (less : α → α → Bool) (first last : Nat) (items : Array α) : Array α :=
  let size := last - first
  let heap := (List.range ((size - 1) / 2 + 1)).reverse.foldl (fun items root =>
    siftDown less first size size root items) items
  (List.range size).reverse.foldl (fun items place =>
    siftDown less first place size 0 (items.swapIfInBounds first (first + place))) heap

def reverseRange (first last : Nat) (items : Array α) : Array α :=
  (List.range ((last - first) / 2)).foldl (fun items i =>
    items.swapIfInBounds (first + i) (last - 1 - i)) items

/-- The next number of a shift register. -/
def scramble (n : UInt64) : UInt64 :=
  let n := n ^^^ (n <<< 13)
  let n := n ^^^ (n >>> 7)
  n ^^^ (n <<< 17)

/-- How many binary digits a number has. -/
def bitLength (n : Nat) : Nat := if n = 0 then 0 else n.log2 + 1

/-- Swaps `count` items from `place` on with items of the range that begins at `first` and has
`size` items. The numbers of a shift register say with which. -/
def scatter (first size : Nat) : (count place : Nat) → UInt64 → Array α → Array α
  | 0, _, _, items => items
  | count + 1, place, register, items =>
    let register := scramble register
    let drawn := register.toNat % (1 <<< bitLength size)
    let other := if drawn ≥ size then drawn - size else drawn
    scatter first size count (place + 1) register (items.swapIfInBounds place (first + other))

/-- Scatters three items from the middle of a range. -/
def breakPatterns (first last : Nat) (items : Array α) : Array α :=
  let size := last - first
  if size < 8 then items
  else scatter first size 3 (first + (size / 4) * 2 - 1) (UInt64.ofNat size) items

/-- What the choice of a pivot says about the order of a range. -/
inductive Hint where
  | unknown
  | increasing
  | decreasing
deriving DecidableEq

/-- Two places with the one of the lesser item first, and how often places were exchanged. -/
def ordered (less : α → α → Bool) (items : Array α) (i j swaps : Nat) : Nat × Nat × Nat :=
  if lessAt less items j i then (j, i, swaps + 1) else (i, j, swaps)

/-- The place of the median of three items, and how often places were exchanged. -/
def median (less : α → α → Bool) (items : Array α) (i j k swaps : Nat) : Nat × Nat :=
  let (i, j, swaps) := ordered less items i j swaps
  let (j, _, swaps) := ordered less items j k swaps
  let (_, j, swaps) := ordered less items i j swaps
  (j, swaps)

/-- The place of the pivot of a range: the median of three items at its quarters, or of the medians
of three neighbours there when the range is long. -/
def choosePivot (less : α → α → Bool) (first last : Nat) (items : Array α) : Nat × Hint :=
  let size := last - first
  let quarter := size / 4
  let i := first + quarter
  let j := first + quarter * 2
  let k := first + quarter * 3
  let (i, j, k, swaps) :=
    if size < 50 then (i, j, k, 0)
    else
      let (i, swaps) := median less items (i - 1) i (i + 1) 0
      let (j, swaps) := median less items (j - 1) j (j + 1) swaps
      let (k, swaps) := median less items (k - 1) k (k + 1) swaps
      (i, j, k, swaps)
  let (j, swaps) := if size < 8 then (j, swaps) else median less items i j k swaps
  (j, match swaps with
    | 0 => .increasing
    | 12 => .decreasing
    | _ => .unknown)

def descent? (less : α → α → Bool) (items : Array α) : (count place : Nat) → Option Nat
  | 0, _ => none
  | count + 1, place =>
    if lessAt less items place (place - 1) then some place
    else descent? less items count (place + 1)

/-- Mends up to `steps` descents of a range from `place` on; says whether the range is sorted. Short
ranges are left alone. -/
def mend (less : α → α → Bool) (first last : Nat) :
    (steps place : Nat) → Array α → Array α × Bool
  | 0, _, items => (items, false)
  | steps + 1, place, items =>
    match descent? less items (last - place) place with
    | none => (items, true)
    | some place =>
      if last - first < 50 then (items, false)
      else
        let items := items.swapIfInBounds place (place - 1)
        let items := if place - first ≥ 2 then sink less 0 (place - 1) items else items
        let items := rise less (last - (place + 1)) (place + 1) items
        mend less first last steps place items

/-- The first place from `low` up to `high` that fails the test, going up. -/
def climb (test : Nat → Bool) (high : Nat) : (fuel low : Nat) → Nat
  | 0, low => low
  | fuel + 1, low => if low ≤ high && test low then climb test high fuel (low + 1) else low

/-- The last place from `high` down to `low` that fails the test, going down. -/
def descend (test : Nat → Bool) (low : Nat) : (high : Nat) → Nat
  | 0 => 0
  | high + 1 => if low ≤ high + 1 && test (high + 1) then descend test low high else high + 1

structure Division (α : Type) where
  items : Array α
  /-- The first place that was not passed going up. -/
  up : Nat
  /-- The last place that was not passed going down. -/
  down : Nat
  /-- How many pairs changed places. -/
  swaps : Nat

/-- Divides the places from `low` to `high`: those that belong to the left come before those that
belong to the right. -/
def divide (onLeft onRight : Array α → Nat → Bool) :
    (fuel low high swaps : Nat) → Array α → Division α
  | 0, low, high, swaps, items => ⟨items, low, high, swaps⟩
  | fuel + 1, low, high, swaps, items =>
    let low := climb (onLeft items) high (high + 1 - low) low
    let high := descend (onRight items) low high
    if low > high then ⟨items, low, high, swaps⟩
    else
      divide onLeft onRight fuel (low + 1) (high - 1) (swaps + 1) (items.swapIfInBounds low high)

/-- Divides a range into the items less than the pivot, the pivot, and the others. The place of the
pivot, and whether nothing had to move. -/
def partition (less : α → α → Bool) (first last pivot : Nat) (items : Array α) :
    Array α × Nat × Bool :=
  let division := divide (fun items i => lessAt less items i first)
    (fun items i => !lessAt less items i first) (last - first) (first + 1) (last - 1) 0
    (items.swapIfInBounds first pivot)
  (division.items.swapIfInBounds division.down first, division.down, division.swaps == 0)

/-- Divides a range without items less than the pivot into those equal to it and those greater. The
place of the first greater one. -/
def partitionEqual (less : α → α → Bool) (first last pivot : Nat) (items : Array α) :
    Array α × Nat :=
  let division := divide (fun items i => !lessAt less items first i)
    (fun items i => lessAt less items first i) (last - first) (first + 1) (last - 1) 0
    (items.swapIfInBounds first pivot)
  (division.items, division.up)

/-- Sorts the range from `first` up to `last`. At most `limit` more unbalanced divisions are
tolerated; `balanced` and `partitioned` describe the last division. Every division shortens the
range, so its size is enough `fuel`. -/
def sortRange (less : α → α → Bool) :
    (fuel first last limit : Nat) → (balanced partitioned : Bool) → Array α → Array α
  | 0, _, _, _, _, _, items => items
  | fuel + 1, first, last, limit, balanced, partitioned, items =>
    let size := last - first
    if size ≤ 12 then insertionSort less first last items
    else if limit = 0 then heapSort less first last items
    else
      let limit := if balanced then limit else limit - 1
      let items := if balanced then items else breakPatterns first last items
      let (pivot, hint) := choosePivot less first last items
      let turned := hint == .decreasing
      let items := if turned then reverseRange first last items else items
      let pivot := if turned then last - 1 - (pivot - first) else pivot
      let (items, sorted) :=
        if balanced && partitioned && hint != .unknown then
          mend less first last 5 (first + 1) items
        else (items, false)
      if sorted then items
      else if first > 0 && !lessAt less items (first - 1) pivot then
        let (items, middle) := partitionEqual less first last pivot items
        sortRange less fuel middle last limit balanced partitioned items
      else
        let (items, middle, unmoved) := partition less first last pivot items
        if middle - first < last - middle then
          sortRange less fuel (middle + 1) last limit (middle - first ≥ size / 8) unmoved
            (sortRange less fuel first middle limit true true items)
        else
          sortRange less fuel first middle limit (last - middle ≥ size / 8) unmoved
            (sortRange less fuel (middle + 1) last limit true true items)

end Quicksort

def quicksort {α : Type} (less : α → α → Bool) (items : List α) : List α :=
  let size := items.length
  (Quicksort.sortRange less (size + 1) 0 size (Quicksort.bitLength size) true true
    items.toArray).toList

end DexLift
