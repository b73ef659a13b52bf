import DexLift.Ir.Flow
import DexLift.Proofs.Tables
import Mathlib.Data.List.Basic

/-!
# The statement graph

Every table of the graph of a method has one entry for each statement of the
body, computed from that statement and its position alone. So the edges out of a
position are those `succsAt` and `exSuccsAt` give, and behind the body there is
nothing.
-/

namespace DexLift.Ir

open List

variable {a : Action} {m : Method} {position next : Nat}

theorem mem_addNew {α : Type} [BEq α] [LawfulBEq α] {xs : List α} {x y : α} :
    y ∈ addNew xs x ↔ y ∈ xs ∨ y = x := by
  unfold addNew
  split
  next known =>
    constructor
    · exact Or.inl
    · rintro (old | rfl)
      · exact old
      · exact contains_iff_mem.mp known
  · simp

theorem mem_foldl_addNew {α : Type} [BEq α] [LawfulBEq α] {added xs : List α} {y : α} :
    y ∈ added.foldl addNew xs ↔ y ∈ xs ∨ y ∈ added := by
  induction added generalizing xs with
  | nil => simp
  | cons x added ih =>
    rw [foldl_cons, ih, mem_addNew, mem_cons, or_assoc]

theorem Action.targets_of_endsBlock (inside : a.endsBlock = false) : a.targets = [] := by
  cases a <;> first | rfl | cases inside

namespace Method

theorem getElem?_body (m : Method) (position : Nat) :
    (m.body[position]?).map (fun entry => entry.2.action) = m.actions[position]? := by
  simp only [body, actions, getElem?_map, Option.map_map]
  rfl

theorem mem_succsAt :
    next ∈ m.succsAt position a ↔
      (a.fallsThrough = true ∧ position + 1 < m.order.size ∧ next = position + 1) ∨
        ∃ l ∈ a.targets, m.positionOf? l = some next := by
  simp only [succsAt, mem_foldl_addNew, mem_filterMap]
  refine or_congr_left ?_
  split
  next both => simp_all
  next neither =>
    simp only [Bool.and_eq_true, decide_eq_true_eq, not_and, Nat.not_lt] at neither
    simp only [not_mem_nil, false_iff, not_and]
    intro falls inside
    exact absurd inside (Nat.not_lt.mpr (neither falls))

theorem mem_exSuccsAt {covers : List Nat} :
    next ∈ m.exSuccsAt covers a ↔
      a.canThrow = true ∧ ∃ i ∈ covers, ∃ t, m.traps[i]? = some t ∧
        m.positionOf? t.handler = some next := by
  unfold exSuccsAt
  split
  next throws =>
    rw [mem_foldl_addNew, mem_filterMap]
    simp [throws, Option.bind_eq_some_iff]
  next quiet => simp [quiet]

theorem mem_coversAt {i : Nat} :
    i ∈ m.coversAt position ↔ ∃ t start stop, m.traps[i]? = some t ∧
      m.positionOf? t.start = some start ∧ m.positionOf? t.stop = some stop ∧
        start < position ∧ position < stop := by
  simp only [coversAt, mem_map, mem_filter, Prod.exists, mem_zipIdx_iff_getElem?]
  constructor
  · rintro ⟨t, _, ⟨found, inside⟩, rfl⟩
    split at inside
    next start stop isStart isStop =>
      simp only [Bool.and_eq_true, decide_eq_true_eq] at inside
      exact ⟨t, start, stop, found, isStart, isStop, inside.1, inside.2⟩
    · cases inside
  · rintro ⟨t, start, stop, found, isStart, isStop, after, before⟩
    exact ⟨t, i, ⟨found, by simp [isStart, isStop, after, before]⟩, rfl⟩

end Method

namespace Flow

variable (m : Method)

@[simp] theorem size_ofMethod : (ofMethod m).size = m.order.size := by
  simp [size, ofMethod, Method.body]

theorem action_ofMethod (position : Nat) :
    (ofMethod m).action position = (m.actions[position]?).getD .nop := by
  rw [← Method.getElem?_body]
  simp [action, ofMethod]

theorem action_mem_or (position : Nat) :
    (ofMethod m).action position ∈ m.actions ∨ (ofMethod m).action position = .nop := by
  rw [action_ofMethod]
  cases found : m.actions[position]? with
  | none => exact .inr rfl
  | some a => exact .inl (mem_of_getElem? found)

theorem succsOf_ofMethod (position : Nat) :
    (ofMethod m).succsOf position =
      ((m.actions[position]?).map (m.succsAt position)).getD [] := by
  rw [← Method.getElem?_body]
  simp [succsOf, ofMethod, getElem?_zipIdx, Function.comp_def]

theorem exSuccsOf_ofMethod (position : Nat) :
    (ofMethod m).exSuccsOf position =
      ((m.actions[position]?).map (m.exSuccsAt (m.coversAt position))).getD [] := by
  rw [← Method.getElem?_body]
  simp only [exSuccsOf, ofMethod, Array.getD_eq_getD_getElem?, getElem?_toArray,
    getElem?_map, zip, getElem?_zipWith, getElem?_zipIdx, Nat.zero_add]
  cases m.body[position]? <;> rfl

theorem lt_size_of_edge {m : Method}
    (edge : next ∈ (ofMethod m).succsOf position ∨ next ∈ (ofMethod m).exSuccsOf position) :
    position < (ofMethod m).size := by
  have size : m.actions.length = m.order.size := by simp [Method.actions]
  rw [succsOf_ofMethod, exSuccsOf_ofMethod] at edge
  rw [size_ofMethod, ← size]
  refine Nat.lt_of_not_le fun outside => ?_
  rw [getElem?_eq_none outside] at edge
  rcases edge with normal | thrown
  · cases normal
  · cases thrown

end Flow

end DexLift.Ir
