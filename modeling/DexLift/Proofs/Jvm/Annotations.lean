import DexLift.Jvm.ClassFile
import DexLift.Proofs.Jvm.Scanning
import Mathlib.Data.List.Forall2

/-!
# What annotations say

Values of annotations nest, and each list of them has a count of two bytes in front of
it. The rules of the format are stated as a reader that takes the tags and the counts
and passes over indices. Where no list is too long to be counted, that reader finds the
shape of each annotation again, with as many elements as there were in each list.
-/

namespace DexLift.Jvm

open List

/-- A value of an annotation without what its indices lead to. -/
inductive Shape where
  | constant (tag : UInt8)
  | enum
  | nested (elements : List Shape)
  | array (elements : List Shape)

namespace ElementValue

mutual

def shape : ElementValue → Shape
  | number tag _ => .constant tag
  | string _ => .constant stringTag
  | .class _ => .constant 99
  | enum _ _ => .enum
  | nested _ elements => .nested (shapesNamed elements)
  | array elements => .array (shapes elements)

def shapesNamed : List (Text × ElementValue) → List Shape
  | [] => []
  | (_, value) :: rest => value.shape :: shapesNamed rest

def shapes : List ElementValue → List Shape
  | [] => []
  | value :: rest => value.shape :: shapes rest

end

/-- The letters that mark numbers. -/
def numberTags : List UInt8 := [66, 67, 68, 70, 73, 74, 83, 90]

/-- A value that nests at most so deep, whose numbers have a type and whose lists can be counted. -/
inductive FitsIn : (depth : Nat) → ElementValue → Prop where
  | number {depth : Nat} {tag : UInt8} (known : tag ∈ numberTags) (bits : UInt64) :
      FitsIn (depth + 1) (.number tag bits)
  | string {depth : Nat} (text : Text) : FitsIn (depth + 1) (.string text)
  | class {depth : Nat} (desc : Text) : FitsIn (depth + 1) (.class desc)
  | enum {depth : Nat} (type name : Text) : FitsIn (depth + 1) (.enum type name)
  | nested {depth : Nat} (type : Text) {elements : List (Text × ElementValue)}
      (few : elements.length ≤ 65535) (each : ∀ element ∈ elements, FitsIn depth element.2) :
      FitsIn (depth + 1) (.nested type elements)
  | array {depth : Nat} {elements : List ElementValue} (few : elements.length ≤ 65535)
      (each : ∀ element ∈ elements, FitsIn depth element) : FitsIn (depth + 1) (.array elements)

end ElementValue

namespace Annotation

def shape (a : Annotation) : List Shape := ElementValue.shapesNamed a.elements

/-- An annotation whose values nest at most so deep and can be counted. -/
structure FitsIn (depth : Nat) (a : Annotation) : Prop where
  few : a.elements.length ≤ 65535
  each : ∀ element ∈ a.elements, ElementValue.FitsIn depth element.2

end Annotation

namespace Decode

/-! ## The rules of the format -/

/-- A value that nests at most so deep. -/
def shape : (depth : Nat) → Decode Shape
  | 0 => failure
  | depth + 1 => do
    let tag ← byte
    if tag = 101 then
      let _ ← count
      let _ ← count
      return .enum
    else if tag = 64 then
      let _ ← count
      return .nested (← times (do
        let _ ← count
        shape depth) (← count))
    else if tag = 91 then return .array (← times (shape depth) (← count))
    else
      let _ ← count
      return .constant tag

def named (depth : Nat) : Decode Shape := do
  let _ ← count
  shape depth

/-- An annotation: its type, then values with names. -/
def annotated (depth : Nat) : Decode (List Shape) := do
  let _ ← count
  times (named depth) (← count)

def annotations (depth : Nat) : Decode (List (List Shape)) := do
  times (annotated depth) (← count)

/-! ## Reading what was written -/

open ElementValue (FitsIn)

variable {depth : Nat}

theorem yields_constant {tag : UInt8} (plain : tag ≠ 101 ∧ tag ≠ 64 ∧ tag ≠ 91) (i : UInt16) :
    Yields (shape (depth + 1)) (tag :: u2 i) (.constant tag) := by
  refine (yields_byte tag).bind ?_
  rw [if_neg plain.1, if_neg plain.2.1, if_neg plain.2.2]
  exact (yields_index i).bind_nil (.pure _)

theorem yields_encodeNamed {elements : List (Text × ElementValue)}
    (each : ∀ element ∈ elements, ∀ p,
      Yields (shape depth) (element.2.encode.run p).1 element.2.shape) (p : Pool) :
    Yields (times (named depth) elements.length) ((ElementValue.encodeNamed elements).run p).1
      (ElementValue.shapesNamed elements) := by
  induction elements generalizing p with
  | nil => exact .pure []
  | cons element rest ih =>
    obtain ⟨name, value⟩ := element
    obtain ⟨first, each⟩ := forall_mem_cons.mp each
    have one : Yields (named depth) (u2 ((Pool.utf8 name).run p).1 ++
        (value.encode.run ((Pool.utf8 name).run p).2).1) value.shape :=
      (yields_index _).bind (first _)
    exact one.bind ((ih each _).bind_nil (.pure _))

theorem yields_encodeAll {elements : List ElementValue}
    (each : ∀ element ∈ elements, ∀ p, Yields (shape depth) (element.encode.run p).1 element.shape)
    (p : Pool) :
    Yields (times (shape depth) elements.length) ((ElementValue.encodeAll elements).run p).1
      (ElementValue.shapes elements) := by
  induction elements generalizing p with
  | nil => exact .pure []
  | cons element rest ih =>
    obtain ⟨first, each⟩ := forall_mem_cons.mp each
    exact (first p).bind ((ih each _).bind_nil (.pure _))

theorem encode_number {tag : UInt8} (known : tag ∈ ElementValue.numberTags) (bits : UInt64)
    (p : Pool) : ∃ i, ((ElementValue.number tag bits).encode.run p).1 = tag :: u2 i := by
  unfold ElementValue.encode
  split
  · exact ⟨_, rfl⟩
  next notFloat =>
    split
    · exact ⟨_, rfl⟩
    next notLong =>
      split
      · exact ⟨_, rfl⟩
      next notDouble =>
        have others : tag ∈ [66, 67, 73, 83, 90] := by
          simp only [ElementValue.numberTags, mem_cons, not_mem_nil] at known ⊢
          tauto
        rw [if_pos others]
        exact ⟨_, rfl⟩

theorem yields_shape {value : ElementValue} (fits : FitsIn depth value) (p : Pool) :
    Yields (shape depth) (value.encode.run p).1 value.shape := by
  induction depth generalizing value p with
  | zero => cases fits
  | succ depth ih =>
    cases fits with
    | @number _ tag known bits =>
      obtain ⟨i, written⟩ := encode_number known bits p
      have plain : ∀ tag ∈ ElementValue.numberTags, tag ≠ 101 ∧ tag ≠ 64 ∧ tag ≠ 91 := by
        simp [ElementValue.numberTags]
      rw [written]
      exact yields_constant (plain tag known) i
    | string text | «class» desc => exact yields_constant (by decide) _
    | enum type name =>
      refine (yields_byte 101).bind ?_
      exact (yields_index _).bind ((yields_index _).bind_nil (.pure _))
    | nested type few each =>
      have named := yields_encodeNamed (fun element member p =>
        ih (each element member) p) ((Pool.utf8 type).run p).2
      refine (yields_byte 64).bind ?_
      refine (yields_index _).bind ?_
      exact (yields_count few).bind (named.bind_nil (.pure _))
    | array few each =>
      have all := yields_encodeAll (fun element member p =>
        ih (each element member) p) p
      refine (yields_byte 91).bind ?_
      exact (yields_count few).bind (all.bind_nil (.pure _))

theorem yields_annotated {a : Annotation} (fits : a.FitsIn depth) (p : Pool) :
    Yields (annotated depth) (a.encode.run p).1 a.shape := by
  have elements := yields_encodeNamed (fun element member p =>
    yields_shape (fits.each element member) p) ((Pool.utf8 a.type).run p).2
  refine (yields_index _).bind ?_
  exact (yields_count fits.few).bind elements

theorem yields_annotations {chosen : List Annotation} (few : chosen.length ≤ 65535)
    (fits : ∀ a ∈ chosen, a.FitsIn depth) (p : Pool) :
    Yields (annotations depth) (u2OfNat chosen.length ++
      ((chosen.mapM Annotation.encode).run p).1.flatten) (chosen.map Annotation.shape) := by
  have all : Yields (times (annotated depth) chosen.length)
      ((chosen.mapM Annotation.encode).run p).1.flatten (chosen.map Annotation.shape) := by
    induction chosen generalizing p with
    | nil => exact .pure []
    | cons a chosen ih =>
      obtain ⟨first, fits⟩ := forall_mem_cons.mp fits
      have fewer : chosen.length ≤ 65535 := le_trans (Nat.le_succ _) few
      rw [mapM_cons]
      exact (yields_annotated first p).bind ((ih fewer fits _).bind_nil (.pure _))
  exact (yields_count few).bind all

end Decode

/-- The name of the attribute for annotations that are kept at run time, or for the others. -/
def annotationsName (isVisible : Bool) : String :=
  if isVisible then "RuntimeVisibleAnnotations" else "RuntimeInvisibleAnnotations"

/-- The annotations that are kept at run time, or the others. -/
def annotationsOf (annotations : List Annotation) (isVisible : Bool) : List Annotation :=
  annotations.filter (·.isVisible == isVisible)

/-- An attribute holds all annotations of its kind, each with all its values. -/
structure HoldsAnnotations (depth : Nat) (annotations : List Annotation) (isVisible : Bool)
    (held : Attribute) : Prop where
  name : held.1 = annotationsName isVisible
  yields : Decode.Yields (Decode.annotations depth) held.2
    ((annotationsOf annotations isVisible).map Annotation.shape)

theorem holds_annotationAttributes {depth : Nat} {annotations : List Annotation}
    (few : annotations.length ≤ 65535) (fits : ∀ a ∈ annotations, a.FitsIn depth) (p : Pool) :
    Forall₂ (HoldsAnnotations depth annotations)
      ([true, false].filter fun isVisible => !(annotationsOf annotations isVisible).isEmpty)
      ((annotationAttributes annotations).run p).1 := by
  have one : ∀ isVisible p, Forall₂ (HoldsAnnotations depth annotations)
      ([isVisible].filter fun isVisible => !(annotationsOf annotations isVisible).isEmpty)
      ((do
        if (annotationsOf annotations isVisible).isEmpty then return []
        let pieces ← (annotationsOf annotations isVisible).mapM Annotation.encode
        return [(annotationsName isVisible,
          u2OfNat (annotationsOf annotations isVisible).length ++ pieces.flatten)] :
        Intern (List Attribute)).run p).1 := by
    intro isVisible p
    by_cases empty : (annotationsOf annotations isVisible).isEmpty = true
    · rw [if_pos empty, filter_cons_of_neg (by simp [empty]), filter_nil]
      exact .nil
    · rw [if_neg empty, filter_cons_of_pos (by simp [empty]), filter_nil]
      refine .cons ⟨rfl, Decode.yields_annotations ?_ ?_ p⟩ .nil
      · exact le_trans (length_filter_le _ _) few
      · exact fun a member => fits a (mem_of_mem_filter member)
  have kinds : annotations.partition Annotation.isVisible =
      (annotationsOf annotations true, annotationsOf annotations false) := by
    simp [partition_eq_filter_filter, annotationsOf, Function.comp_def]
  have asked : [true, false].filter (fun isVisible =>
        !(annotationsOf annotations isVisible).isEmpty) =
      [true].filter (fun isVisible => !(annotationsOf annotations isVisible).isEmpty) ++
        [false].filter (fun isVisible => !(annotationsOf annotations isVisible).isEmpty) := by
    rw [← filter_append]
    rfl
  rw [asked, annotationAttributes, kinds]
  exact rel_append (one true p) (one false _)

end DexLift.Jvm
