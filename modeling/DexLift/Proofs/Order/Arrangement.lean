import DexLift.Order.Quicksort
import Mathlib.Data.List.Basic

/-!
# Sorting only arranges

Every step of the quicksort exchanges items, whatever the comparison says. So its
result is an arrangement of its input.
-/

namespace DexLift

namespace Quicksort

variable {α : Type} {less : α → α → Bool}

theorem perm_swap (items : Array α) (i j : Nat) : (items.swapIfInBounds i j).Perm items := by
  unfold Array.swapIfInBounds
  split
  · split
    · exact Array.swap_perm _ _
    · exact .refl items
  · exact .refl items

theorem perm_ite {p : Prop} [Decidable p] {first second items : Array α}
    (left : first.Perm items) (right : second.Perm items) :
    (if p then first else second).Perm items := by
  split
  · exact left
  · exact right

theorem perm_foldl {β : Type} {step : Array α → β → Array α}
    (each : ∀ items b, (step items b).Perm items) (bs : List β) (items : Array α) :
    (bs.foldl step items).Perm items := by
  induction bs generalizing items with
  | nil => exact .refl items
  | cons b bs ih => exact (ih _).trans (each items b)

theorem perm_sink (bottom place : Nat) (items : Array α) :
    (sink less bottom place items).Perm items := by
  induction place generalizing items with
  | zero => exact .refl items
  | succ place ih =>
    unfold sink
    split
    · exact (ih _).trans (perm_swap _ _ _)
    · exact .refl items

theorem perm_rise (count place : Nat) (items : Array α) :
    (rise less count place items).Perm items := by
  induction count generalizing place items with
  | zero => exact .refl items
  | succ count ih =>
    unfold rise
    split
    · exact (ih _ _).trans (perm_swap _ _ _)
    · exact .refl items

theorem perm_insertionSort (first last : Nat) (items : Array α) :
    (insertionSort less first last items).Perm items :=
  perm_foldl (fun _ _ => perm_sink _ _ _) _ _

theorem perm_siftDown (first size fuel root : Nat) (items : Array α) :
    (siftDown less first size fuel root items).Perm items := by
  induction fuel generalizing root items with
  | zero => exact .refl items
  | succ fuel ih =>
    refine perm_ite (.refl items) (perm_ite ?_ (.refl items))
    exact (ih _ _).trans (perm_swap _ _ _)

theorem perm_heapSort (first last : Nat) (items : Array α) :
    (heapSort less first last items).Perm items := by
  refine (perm_foldl ?_ _ _).trans (perm_foldl ?_ _ _)
  · exact fun _ _ => (perm_siftDown _ _ _ _ _).trans (perm_swap _ _ _)
  · exact fun _ _ => perm_siftDown _ _ _ _ _

theorem perm_reverseRange (first last : Nat) (items : Array α) :
    (reverseRange first last items).Perm items :=
  perm_foldl (fun _ _ => perm_swap _ _ _) _ _

theorem perm_scatter (first size count place : Nat) (register : UInt64) (items : Array α) :
    (scatter first size count place register items).Perm items := by
  induction count generalizing place register items with
  | zero => exact .refl items
  | succ count ih =>
    exact (ih _ _ _).trans (perm_swap _ _ _)

theorem perm_breakPatterns (first last : Nat) (items : Array α) :
    (breakPatterns first last items).Perm items := by
  unfold breakPatterns
  dsimp only
  split
  · exact .refl items
  · exact perm_scatter _ _ _ _ _ _

theorem perm_mend (first last steps place : Nat) (items : Array α) :
    (mend less first last steps place items).1.Perm items := by
  induction steps generalizing place items with
  | zero => exact .refl items
  | succ steps ih =>
    unfold mend
    split
    · exact .refl items
    · split
      · exact .refl items
      · refine (ih _ _).trans ((perm_rise _ _ _).trans ?_)
        split
        · exact (perm_sink _ _ _).trans (perm_swap _ _ _)
        · exact perm_swap _ _ _

theorem perm_divide (onLeft onRight : Array α → Nat → Bool) (fuel low high swaps : Nat)
    (items : Array α) : (divide onLeft onRight fuel low high swaps items).items.Perm items := by
  induction fuel generalizing low high swaps items with
  | zero => exact .refl items
  | succ fuel ih =>
    unfold divide
    dsimp only
    split
    · exact .refl items
    · exact (ih _ _ _ _).trans (perm_swap _ _ _)

theorem perm_partition (first last pivot : Nat) (items : Array α) :
    (partition less first last pivot items).1.Perm items :=
  (perm_swap _ _ _).trans ((perm_divide _ _ _ _ _ _ _).trans (perm_swap _ _ _))

theorem perm_partitionEqual (first last pivot : Nat) (items : Array α) :
    (partitionEqual less first last pivot items).1.Perm items :=
  (perm_divide _ _ _ _ _ _ _).trans (perm_swap _ _ _)

theorem perm_sortRange (fuel first last limit : Nat) (balanced partitioned : Bool)
    (items : Array α) :
    (sortRange less fuel first last limit balanced partitioned items).Perm items := by
  induction fuel generalizing first last limit balanced partitioned items with
  | zero => exact .refl items
  | succ fuel ih =>
    refine perm_ite (perm_insertionSort _ _ _) (perm_ite (perm_heapSort _ _ _) ?_)
    have broken : (if balanced then items else breakPatterns first last items).Perm items :=
      perm_ite (.refl items) (perm_breakPatterns _ _ _)
    generalize (if balanced then items else breakPatterns first last items) = scattered at broken ⊢
    have mended : ∀ hint : Hint, (if (balanced && partitioned && hint != .unknown) = true then
        mend less first last 5 (first + 1) (if (hint == .decreasing) = true then
          reverseRange first last scattered else scattered)
        else (if (hint == .decreasing) = true then reverseRange first last scattered else scattered,
          false)).1.Perm items := by
      intro hint
      have turned : (if (hint == .decreasing) = true then reverseRange first last scattered
          else scattered).Perm items :=
        perm_ite ((perm_reverseRange _ _ _).trans broken) broken
      split
      · exact (perm_mend _ _ _ _ _).trans turned
      · exact turned
    refine perm_ite (mended _) (perm_ite ?_ ?_)
    · exact (ih _ _ _ _ _ _).trans ((perm_partitionEqual _ _ _ _).trans (mended _))
    · refine perm_ite ?_ ?_ <;>
        exact (ih _ _ _ _ _ _).trans ((ih _ _ _ _ _ _).trans
          ((perm_partition _ _ _ _).trans (mended _)))

end Quicksort

theorem perm_quicksort {α : Type} (less : α → α → Bool) (items : List α) :
    (quicksort less items).Perm items :=
  Array.perm_iff_toList_perm.mp (Quicksort.perm_sortRange _ _ _ _ _ _ items.toArray)

end DexLift
