import DexLift.Proofs.Ir.Joining
import DexLift.Simplify.Arrays
import Mathlib.Data.Option.Basic

/-!
# Literals hold what was stored

An allocation that becomes a literal is followed directly by what fills it: a table for
the whole array, or stores of constants at constant places. The literal has the contents
that these statements leave in the new array, with each number cut down to the element
type as storing it does. Only the allocation and the statements that fill it change; the
rest of the body stays as it is, in its order.
-/

namespace DexLift.Ir

open List Descriptor

/-! ## Contents of arrays -/

variable {kept : Expr} {type : Ty} {action : Action} {place : Nat} {elements : List Expr}
  {m : Method} {behind before : List StmtId} {gone : List Action} {id : StmtId}

/-- The descriptors of numbers, characters and truth values. -/
def primitives : List Text := ["Z", "B", "C", "S", "I", "F", "J", "D"]

/-- What an array holds in one place. -/
inductive Cell where
  | number (bits : UInt64)
  | null
  | object (value : Constant)
deriving DecidableEq

/-- The bits of a number that an array of a primitive type keeps. -/
def cutDown (element : Text) (bits : UInt64) : UInt64 :=
  if element = "Z" then bits &&& 1
  else if element = "B" then bits.toUInt8.toInt8.toInt64.toUInt64
  else if element = "C" then bits.toUInt16.toUInt64
  else if element = "S" then bits.toUInt16.toInt16.toInt64.toUInt64
  else if element = "I" then bits.toUInt32.toInt32.toInt64.toUInt64
  else if element = "F" then bits.toUInt32.toUInt64
  else bits

/-- What storing a constant leaves in an array. A number of reference kind is null, and so is a zero
that is stored in an array of references. -/
def cell? (element : Text) : Expr → Option Cell
  | .node (.const type (.number bits)) _ =>
    if element ∈ primitives then some (.number (cutDown element bits))
    else if type.kind = .ref ∨ bits = 0 then some .null
    else none
  | .node (.const _ value) _ => if element ∈ primitives then none else some (.object value)
  | _ => none

/-- What a new array holds everywhere. -/
def blankCell (element : Text) : Cell := if element ∈ primitives then .number 0 else .null

/-- The contents after a statement that writes constants to the array in a local; none when the
statement does something else. -/
def fill? (element : Text) (id : LocalId) (contents : List Cell) : Action → Option (List Cell)
  | .store (.node (.element _) [array, index]) value =>
    if array.local? = some id ∧ index.isConst ∧ 0 ≤ index.int32.toInt ∧
        index.int32.toInt < contents.length then
      (cell? element value).map fun cell => contents.set index.int32.toInt.toNat cell
    else none
  | .fillArray array data =>
    if array.local? = some id ∧ element ∈ primitives ∧ data.elements.length ≤ contents.length then
      some ((data.elements.map fun value => .number (cutDown element value.toUInt64)) ++
        contents.drop data.elements.length)
    else none
  | _ => none

def Action.isStore : Action → Bool
  | .store _ _ => true
  | _ => false

def Action.fills (id : LocalId) : Action → Bool
  | .store (.node (.element _) (array :: _)) _ => array.local? == some id
  | .fillArray array _ => array.local? == some id
  | _ => false

/-- A literal that stands for an allocation and the statements behind it that fill the array. -/
inductive IsLiteral : Action → List Action → Action → Prop where
  | intro {target : LocalId} {desc : Text} {size : Expr} {rest : List Expr} {gone : List Action}
      {elements : List Expr} {n : Int} (counted : size.constInt? = some n) (positive : 0 < n)
      (length : elements.length = n.toNat) (filled : gone ≠ [])
      (fills : ∀ action ∈ gone, action.fills target = true)
      (contents : elementDesc desc ∈ primitives ∨
          Descriptor.isReference (elementDesc desc) = true ∧
            (∀ action ∈ gone, action.isStore = true) →
        ∃ contents, gone.foldlM (fill? (elementDesc desc) target)
            (replicate n.toNat (blankCell (elementDesc desc))) = some contents ∧
          elements.map (cell? (elementDesc desc)) = contents.map some)
      (references : Descriptor.isReference (elementDesc desc) = true →
        ∀ e ∈ elements, e.isNull = true ∨ ∃ place, .store place e ∈ gone) :
      IsLiteral (.assign target (.node (.newArray desc) (size :: rest))) gone
        (.assign target (.node (.arrayLiteral desc) elements))

/-- A body before and after: an allocation may have become a literal, without the statements that
filled the array, and every other statement is as it was. -/
inductive Condensed : List (StmtId × Stmt) → List (StmtId × Stmt) → Prop where
  | nil : Condensed [] []
  | keep (s : StmtId × Stmt) {before after : List (StmtId × Stmt)}
      (rest : Condensed before after) : Condensed (s :: before) (s :: after)
  | literal {id : StmtId} {s : Stmt} {gone before after : List (StmtId × Stmt)} {made : Action}
      (stands : IsLiteral s.action (gone.map fun fill => fill.2.action) made)
      (rest : Condensed before after) :
      Condensed ((id, s) :: (gone ++ before)) ((id, { s with action := made }) :: after)

/-! ## One element -/

section Elements

variable {element : Text}

theorem kind_of_primitive : ∀ element ∈ primitives, (Ty.ofDesc element).kind ≠ .ref ∧
    ((Ty.ofDesc element).kind = .long ∨ (Ty.ofDesc element).kind = .double ↔
      element = "J" ∨ element = "D") := by
  decide

theorem kind_of_reference (reference : isReference element = true) :
    (Ty.ofDesc element).kind = .ref ∧ element ∉ primitives := by
  have none : ∀ element ∈ primitives, isReference element = false := by decide
  refine ⟨?_, fun primitive => ?_⟩
  · have kind : Kind.ofDesc element = .ref := by
      rw [isReference, Bool.or_eq_true, beq_iff_eq, beq_iff_eq] at reference
      unfold Kind.ofDesc
      rcases reference with first | first
      · rw [first]
        rfl
      · rw [first]
        rfl
    rw [Ty.ofDesc, kind, if_pos (.inl rfl)]
  · rw [none element primitive] at reference
    cases reference

theorem toUInt32_extended (bits : UInt64) :
    bits.toUInt32.toInt32.toInt64.toUInt64.toUInt32 = bits.toUInt32 := by
  apply UInt32.toBitVec_inj.mp
  ext i inside
  have wide : i < 64 := lt_trans inside (by decide)
  simp only [UInt64.toBitVec_toUInt32, Int64.toBitVec_toUInt64, Int32.toBitVec_toInt64,
    UInt32.toBitVec_toInt32, BitVec.getElem_setWidth, BitVec.getLsbD_signExtend,
    BitVec.getLsbD_setWidth, inside, wide, decide_true, Bool.true_and, if_true]

/-- All but the widest types keep no more than the low 32 bits. -/
theorem cutDown_congr (primitive : element ∈ primitives)
    (narrow : ¬ (element = "J" ∨ element = "D")) {a b : UInt64} (same : a.toUInt32 = b.toUInt32) :
    cutDown element a = cutDown element b := by
  have truth : a &&& 1 = b &&& 1 := by
    have low : ∀ bits : UInt64, bits &&& 1 = (bits.toUInt32 &&& 1).toUInt64 := fun bits =>
      UInt64.toNat_inj.mp (by simp)
    rw [low, low, same]
  have byte : a.toUInt8 = b.toUInt8 := by
    rw [← UInt64.toUInt8_toUInt32, ← UInt64.toUInt8_toUInt32 b, same]
  have short : a.toUInt16 = b.toUInt16 := by
    rw [← UInt64.toUInt16_toUInt32, ← UInt64.toUInt16_toUInt32 b, same]
  simp only [primitives, mem_cons, not_mem_nil, or_false] at primitive
  rcases primitive with rfl | rfl | rfl | rfl | rfl | rfl | rfl | rfl
  · exact truth
  · exact congrArg (fun n : UInt8 => n.toInt8.toInt64.toUInt64) byte
  · exact congrArg UInt16.toUInt64 short
  · exact congrArg (fun n : UInt16 => n.toInt16.toInt64.toUInt64) short
  · exact congrArg (fun n : UInt32 => n.toInt32.toInt64.toUInt64) same
  · exact congrArg UInt32.toUInt64 same
  · exact absurd (.inl rfl) narrow
  · exact absurd (.inr rfl) narrow

section

variable (known : element ∈ primitives ∨ isReference element = true)

include known

theorem cell?_zeroOf : cell? element (zeroOf (.ofDesc element)) = some (blankCell element) := by
  rcases known with primitive | reference
  · have zero : cutDown element 0 = 0 := by
      revert element
      decide
    rw [zeroOf, if_neg (kind_of_primitive element primitive).1, Expr.number, Expr.leaf, cell?,
      if_pos primitive, blankCell, if_pos primitive, zero]
  · obtain ⟨kind, other⟩ := kind_of_reference reference
    rw [zeroOf, if_pos kind, Expr.null, Expr.number, Expr.leaf, cell?, if_neg other, blankCell,
      if_neg other]
    rfl

theorem cell?_storedElement
    {stored : Expr} (found : storedElement? (.ofDesc element) stored = some kept) :
    ∃ cell, cell? element stored = some cell ∧ cell? element kept = some cell := by
  unfold storedElement? at found
  split at found
  next own bits args =>
    rcases known with primitive | reference
    · rw [if_neg (kind_of_primitive element primitive).1] at found
      split at found
      · cases found
        exact ⟨_, if_pos primitive, if_pos primitive⟩
      · cases found
    · obtain ⟨kind, other⟩ := kind_of_reference reference
      rw [if_pos kind] at found
      split at found
      next zero =>
        cases found
        exact ⟨.null, by rw [cell?, if_neg other, if_pos (.inr zero)],
          by rw [Expr.null, Expr.number, Expr.leaf, cell?, if_neg other, if_pos (.inr rfl)]⟩
      · cases found
  next own value args notNumber =>
    rcases known with primitive | reference
    · rw [if_neg (kind_of_primitive element primitive).1] at found
      cases found
    · obtain ⟨kind, other⟩ := kind_of_reference reference
      rw [if_pos kind] at found
      cases found
      cases value with
      | number bits => exact absurd rfl (notNumber bits)
      | string | «class» => exact ⟨_, if_neg other, if_neg other⟩
  · cases found

end

theorem cell?_tableElement (primitive : element ∈ primitives) (value : Int64) :
    cell? element (tableElement (.ofDesc element) value) =
      some (.number (cutDown element value.toUInt64)) := by
  have number : ∀ bits, cell? element (.number (.ofDesc element) bits) =
      some (.number (cutDown element bits)) := by
    intro bits
    rw [Expr.number, Expr.leaf, cell?, if_pos primitive]
  obtain ⟨-, wide⟩ := kind_of_primitive element primitive
  rw [tableElement]
  by_cases broad : element = "J" ∨ element = "D"
  · have other : (Ty.ofDesc element).kind ≠ .float := by
      rcases broad with rfl | rfl <;> decide
    rw [if_neg other, if_pos (wide.mpr broad), number]
  · rw [if_neg (mt wide.mp broad), ← apply_ite, number]
    refine congrArg (some ∘ Cell.number) (cutDown_congr primitive broad ?_)
    split
    · exact UInt32.toUInt32_toUInt64 _
    · exact toUInt32_extended _

end Elements

/-! ## The statements that fill an array -/

variable {contents : List Cell}

section Filling

variable {id : LocalId} {size : Nat} {element : Text}

theorem int32_of_constInt {e : Expr} {n : Int} (found : e.constInt? = some n) :
    e.isConst = true ∧ e.int32.toInt = n := by
  unfold Expr.constInt? at found
  split at found
  next own bits args =>
    split at found
    · cases found
      exact ⟨rfl, rfl⟩
    · cases found
  next own value args notNumber =>
    split at found
    · cases found
      refine ⟨rfl, ?_⟩
      cases value with
      | number bits => exact absurd rfl (notNumber bits)
      | string | «class» => rfl
    · cases found
  · cases found

theorem elementStore_eq_some (found : elementStore? id size type action = some (place, kept)) :
    ∃ own array index stored, action = .store (.node (.element own) [array, index]) stored ∧
      array.local? = some id ∧ index.constInt? = some (place : Int) ∧ place < size ∧
      storedElement? type stored = some kept := by
  unfold elementStore? at found
  split at found
  next own array index stored =>
    by_cases here : array.local? = some id
    · simp only [here, bne_self_eq_false, Bool.false_eq_true, if_false] at found
      cases counted : index.constInt? with
      | none => simp [counted] at found
      | some i =>
        by_cases outside : i < 0 ∨ i ≥ size
        · simp [counted, outside] at found
        · cases same : storedElement? type stored with
          | none => simp [counted, same] at found
          | some value =>
            simp only [counted, outside, same, if_false, Option.bind_eq_bind, Option.bind_some,
              Option.pure_def, Option.some.injEq, Prod.mk.injEq] at found
            obtain ⟨rfl, rfl⟩ := found
            refine ⟨own, array, index, stored, rfl, here, ?_, by omega, same⟩
            rw [counted, Int.toNat_of_nonneg (by omega)]
    · simp [here] at found
  · cases found

section

variable (known : element ∈ primitives ∨ isReference element = true)

include known

theorem fill?_of_elementStore
    (found : elementStore? id size (.ofDesc element) action = some (place, kept))
    (length : elements.length = size) (same : elements.map (cell? element) = contents.map some) :
    ∃ changed, fill? element id contents action = some changed ∧
      (elements.set place kept).map (cell? element) = changed.map some := by
  obtain ⟨own, array, index, stored, rfl, here, counted, inside, constant⟩ :=
    elementStore_eq_some found
  obtain ⟨cell, ofStored, ofKept⟩ := cell?_storedElement known constant
  obtain ⟨isConst, value⟩ := int32_of_constInt counted
  have lengths : contents.length = size := by
    rw [← length, ← length_map some, ← same, length_map]
  refine ⟨contents.set place cell, ?_, ?_⟩
  · have bounds : array.local? = some id ∧ index.isConst = true ∧ 0 ≤ index.int32.toInt ∧
        index.int32.toInt < contents.length := by
      refine ⟨here, isConst, ?_, ?_⟩ <;> omega
    rw [fill?, if_pos bounds, ofStored, value, Int.toNat_natCast]
    rfl
  · rw [map_set, map_set, same, ofKept]

theorem foldlM_fill?_of_stores
    (stores : List (Action × Nat × Expr))
    (each : ∀ s ∈ stores, elementStore? id size (.ofDesc element) s.1 = some s.2)
    (length : elements.length = size) (same : elements.map (cell? element) = contents.map some) :
    ∃ final, (stores.map Prod.fst).foldlM (fill? element id) contents = some final ∧
      (stores.foldl (fun es s => es.set s.2.1 s.2.2) elements).map (cell? element) =
        final.map some := by
  induction stores generalizing elements contents with
  | nil => exact ⟨contents, rfl, same⟩
  | cons s rest ih =>
    obtain ⟨changed, first, sameChanged⟩ :=
      fill?_of_elementStore known (each s mem_cons_self) length same
    obtain ⟨final, others, sameFinal⟩ := ih (fun t later => each t (.tail _ later))
      ((length_set ..).trans length) sameChanged
    refine ⟨final, ?_, sameFinal⟩
    rwa [map_cons, foldlM_cons, first]

end

theorem mem_foldl_set {stores : List (Action × Nat × Expr)} {e : Expr}
    (inside : e ∈ stores.foldl (fun es s => es.set s.2.1 s.2.2) elements) :
    e ∈ elements ∨ ∃ s ∈ stores, s.2.2 = e := by
  induction stores generalizing elements with
  | nil => exact .inl inside
  | cons s rest ih =>
    rcases ih inside with old | ⟨t, later, kept⟩
    · rcases mem_or_eq_of_mem_set old with before | rfl
      · exact .inl before
      · exact .inr ⟨s, mem_cons_self, rfl⟩
    · exact .inr ⟨t, .tail _ later, kept⟩

theorem length_foldl_set (stores : List (Action × Nat × Expr)) (elements : List Expr) :
    (stores.foldl (fun es s => es.set s.2.1 s.2.2) elements).length = elements.length := by
  induction stores generalizing elements with
  | nil => rfl
  | cons s rest ih => exact (ih _).trans (length_set ..)

inductive Fills (id : LocalId) (size : Nat) (type : Ty) : List Action → List Expr → Prop where
  | table {array : Expr} {data : FillData} (here : array.local? = some id)
      (length : data.elements.length = size) :
      Fills id size type [.fillArray array data] (data.elements.map (tableElement type))
  | stores {stores : List (Action × Nat × Expr)} (any : stores ≠ [])
      (each : ∀ s ∈ stores, elementStore? id size type s.1 = some s.2) :
      Fills id size type (stores.map Prod.fst)
        (stores.foldl (fun es s => es.set s.2.1 s.2.2) (replicate size (zeroOf type)))

theorem leadingStores_spec (m : Method) (type : Ty) (behind : List StmtId) :
    (∃ rest, behind = (leadingStores m id size type behind).map Prod.fst ++ rest) ∧
      ∀ s ∈ leadingStores m id size type behind,
        elementStore? id size type (m.action s.1) = some s.2 := by
  induction behind with
  | nil => exact ⟨⟨[], rfl⟩, by simp [leadingStores]⟩
  | cons next rest ih =>
    obtain ⟨⟨after, split⟩, each⟩ := ih
    unfold leadingStores
    split
    next place kept found =>
      refine ⟨⟨after, ?_⟩, ?_⟩
      · rw [map_cons, cons_append, ← split]
      · intro s inside
        rcases mem_cons.mp inside with rfl | later
        · exact found
        · exact each s later
    · exact ⟨⟨next :: rest, rfl⟩, by simp⟩

theorem toList_foldl_setIfInBounds (stores : List (StmtId × Nat × Expr)) (elements : Array Expr) :
    (stores.foldl (fun es s => es.setIfInBounds s.2.1 s.2.2) elements).toList =
      stores.foldl (fun es s => es.set s.2.1 s.2.2) elements.toList := by
  induction stores generalizing elements with
  | nil => rfl
  | cons s rest ih =>
    rw [foldl_cons, foldl_cons, ih, Array.toList_setIfInBounds]

theorem fills_of_literalElements {gone : List StmtId}
    (found : literalElements? m id size type behind = some (elements, gone)) :
    ∃ rest, behind = gone ++ rest ∧ Fills id size type (gone.map m.action) elements := by
  unfold literalElements? at found
  dsimp only at found
  rcases (Option.orElse_eq_some ..).mp found with table | ⟨-, stores⟩
  · split at table
    · cases table
    next next rest =>
      split at table
      next array data here =>
        split at table
        next fits =>
          cases table
          refine ⟨rest, rfl, ?_⟩
          rw [map_singleton, here]
          exact .table fits.1 fits.2
        · cases table
      · cases table
  · obtain ⟨⟨rest, split⟩, each⟩ := @leadingStores_spec id size m type behind
    generalize leadingStores m id size type behind = leading at stores split each
    split at stores
    · split at stores
      · cases stores
      next any =>
        cases stores
        refine ⟨rest, split, ?_⟩
        have actions : (leading.map Prod.fst).map m.action =
            (leading.map fun s => (m.action s.1, s.2)).map Prod.fst := by
          rw [map_map, map_map]
          rfl
        rw [actions, toList_foldl_setIfInBounds, Array.toList_replicate]
        have fills : Fills id size type
            ((leading.map fun s => (m.action s.1, s.2)).map Prod.fst) _ :=
          .stores (by simpa using any) (forall_mem_map.mpr each)
        rwa [foldl_map] at fills
    · cases stores

theorem isNull_or_eq_stored (reference : isReference element = true) {stored : Expr}
    (found : storedElement? (.ofDesc element) stored = some kept) :
    kept.isNull = true ∨ kept = stored := by
  have kind := (kind_of_reference reference).1
  unfold storedElement? at found
  split at found
  · rw [if_pos kind] at found
    split at found
    · cases found
      exact .inl rfl
    · cases found
  · rw [if_pos kind] at found
    exact .inr (Option.some.inj found).symm
  · cases found

section

variable (fills : Fills id size type gone elements)

include fills

theorem Fills.writes : ∀ action ∈ gone, action.fills id = true := by
  cases fills with
  | table here length => simpa [Action.fills] using here
  | stores any each =>
    refine forall_mem_map.mpr fun s inside => ?_
    obtain ⟨own, array, index, stored, store, here, -⟩ := elementStore_eq_some (each s inside)
    simpa [store, Action.fills] using here

theorem Fills.ne_nil : gone ≠ [] := by
  cases fills with
  | table here length => simp
  | stores any each => simpa using any

theorem Fills.length_eq : elements.length = size := by
  cases fills with
  | table here length => rw [length_map, length]
  | stores any each => rw [length_foldl_set, length_replicate]

end

section

variable (fills : Fills id size (.ofDesc element) gone elements)

include fills

theorem Fills.contents_eq
    (known : element ∈ primitives ∨
      isReference element = true ∧ ∀ action ∈ gone, action.isStore = true) :
    ∃ contents, gone.foldlM (fill? element id) (replicate size (blankCell element)) =
        some contents ∧ elements.map (cell? element) = contents.map some := by
  cases fills with
  | @table array data here length =>
    have primitive : element ∈ primitives := by
      rcases known with primitive | ⟨-, stores⟩
      · exact primitive
      · exact absurd (stores _ mem_cons_self) (by simp [Action.isStore])
    refine ⟨data.elements.map fun value => .number (cutDown element value.toUInt64), ?_, ?_⟩
    · have whole : data.elements.length = (replicate size (blankCell element)).length :=
        length.trans length_replicate.symm
      rw [foldlM_cons, fill?, if_pos ⟨here, primitive, le_of_eq whole⟩,
        drop_eq_nil_of_le (le_of_eq whole.symm), append_nil]
      rfl
    · rw [map_map, map_map]
      exact map_congr_left fun value _ => cell?_tableElement primitive value
  | stores any each =>
    have sort : element ∈ primitives ∨ isReference element = true :=
      known.imp_right And.left
    refine foldlM_fill?_of_stores sort _ each length_replicate ?_
    rw [map_replicate, map_replicate, cell?_zeroOf sort]

theorem Fills.isNull_or_stored (reference : isReference element = true) :
    ∀ e ∈ elements, e.isNull = true ∨ ∃ place, .store place e ∈ gone := by
  have kind := (kind_of_reference reference).1
  intro e inside
  cases fills with
  | table here length =>
    obtain ⟨value, -, rfl⟩ := mem_map.mp inside
    refine .inl ?_
    have narrow : ¬ (Kind.ref = .float) ∧ ¬ (Kind.ref = .long ∨ Kind.ref = .double) := by decide
    rw [tableElement, kind, if_neg narrow.1, if_neg narrow.2]
    exact beq_iff_eq.mpr kind
  | stores any each =>
    rcases mem_foldl_set inside with blank | ⟨s, stored, rfl⟩
    · obtain rfl := eq_of_mem_replicate blank
      rw [zeroOf, if_pos kind]
      exact .inl rfl
    · obtain ⟨own, array, index, value, store, -, -, -, constant⟩ :=
        elementStore_eq_some (each s stored)
      refine (isNull_or_eq_stored reference constant).imp_right fun same => ?_
      exact ⟨_, mem_map.mpr ⟨s, stored, same ▸ store⟩⟩

end

end Filling

/-! ## The pass -/

theorem label?_of_fills {id : LocalId} (fills : action.fills id = true) : action.label? = none := by
  cases action with
  | label l => cases fills
  | _ => rfl

namespace Method

theorem filter_stretch {front gone back : List StmtId} (nodup : (front ++ (gone ++ back)).Nodup) :
    (front ++ (gone ++ back)).filter (fun id => !gone.contains id) = front ++ back := by
  have apart := (nodup_append.mp nodup).2.2
  have behind := (nodup_append.mp (nodup_append.mp nodup).2.1).2.2
  have inFront : ∀ id ∈ front, (!gone.contains id) = true := by grind
  have inBack : ∀ id ∈ back, (!gone.contains id) = true := by
    intro id inside
    simpa using fun member => behind id member id inside rfl
  rw [filter_append, filter_append, filter_eq_self.mpr inFront,
    filter_eq_self.mpr inBack, filter_eq_nil_iff.mpr (by simp), nil_append]

theorem removeWhere_fills (tidy : m.Tidy) {front gone back : List StmtId}
    (split : m.order.toList = front ++ (gone ++ back)) {target : LocalId}
    (writes : ∀ s ∈ gone, (m.action s).fills target = true) :
    m.removeWhere gone.contains = { m with order := (front ++ back).toArray } := by
  have others : ∀ s ∈ m.order.toList, gone.contains s = true → (m.action s).label? = none := by
    intro s _ member
    exact label?_of_fills (writes s (contains_iff_mem.mp member))
  have order : (m.order.filter fun s => !gone.contains s) = (front ++ back).toArray := by
    rw [← filter_stretch (split ▸ tidy.nodup), ← split, ← Array.toList_filter]
  rw [removeWhere_of_not_label tidy.plain others, order]

theorem literalAt_of_not_assign (other : ∀ target value, m.action id ≠ .assign target value) :
    m.literalAt id = m := by
  unfold literalAt
  split
  next target desc size rest here => exact absurd here (other target _)
  · rfl

section

variable (tidy : m.Tidy) (split : m.order.toList = before ++ id :: behind)

include tidy split

theorem tail_onward : (m.onward id).tail = behind := by
  have distinct : (before ++ id :: behind).Nodup := split ▸ tidy.nodup
  have new := (nodup_cons.mp (nodup_middle.mp distinct)).1
  have early : ∀ s ∈ before, (s != id) = true := by grind
  simp only [onward, tidy.plain, split]
  rw [dropWhile_append_of_pos early, dropWhile_cons_of_neg (by simp), tail_cons]

/-- What making one literal does: nothing, or the statements behind the allocation that fill the
array go, and the allocation becomes a literal that stands for it and them. -/
theorem literalAt_cases :
    m.literalAt id = m ∨
      ∃ gone after made, behind = gone ++ after ∧
        (∀ s ∈ gone, ∃ target, (m.action s).fills target = true) ∧
        IsLiteral (m.action id) (gone.map m.action) made ∧ (m.literalAt id).Tidy ∧
        (∃ stmts, m.literalAt id =
          { m with order := (before ++ id :: after).toArray, stmts }) ∧
        ∀ other, (m.literalAt id).stmt other =
          if other = id then { m.stmt other with action := made } else m.stmt other := by
  generalize result : m.literalAt id = n
  unfold literalAt at result
  split at result
  next target desc size others here =>
    split at result
    · exact .inl result.symm
    next count counted =>
      split at result
      · exact .inl result.symm
      next proper =>
        rw [tail_onward tidy split] at result
        dsimp only at result
        split at result
        · exact .inl result.symm
        next elements gone found =>
          obtain ⟨after, rfl, fills⟩ := fills_of_literalElements found
          have positive : 0 < count := by
            by_contra small
            simp [show count ≤ 0 by omega] at proper
          have writes : ∀ s ∈ gone, (m.action s).fills target = true :=
            forall_mem_map.mp fills.writes
          have removed : m.removeWhere gone.contains =
              { m with order := (before ++ id :: after).toArray } := by
            have front : m.order.toList = (before ++ [id]) ++ (gone ++ after) := by
              rw [split, append_assoc, singleton_append]
            rw [removeWhere_fills tidy front writes, append_assoc, singleton_append]
          refine .inr ⟨gone, after, .assign target (.node (.arrayLiteral desc) elements), rfl,
            fun s inside => ⟨target, writes s inside⟩, ?_, ?_, ?_, ?_⟩
          · rw [here]
            exact ⟨counted, positive, fills.length_eq, fills.ne_nil, fills.writes,
              fills.contents_eq, fills.isNull_or_stored⟩
          · rw [← result]
            refine (tidy.removeWhere gone.contains).setAction ?_ rfl
            rw [removed]
            exact congrArg Action.label? here
          · rw [← result, removed]
            exact ⟨_, rfl⟩
          · have known := tidy.made id (by simp [split])
            rw [← result, removed]
            exact stmt_setAction (m := { m with order := _ }) known _
  · exact .inl result.symm

end

/-- A run over a part of the body, from the statements in front of it on: each statement is left as it
was, or it becomes a literal and those that filled the array go. -/
inductive Literals : List StmtId → List StmtId → Method → Method → Prop where
  | done {before : List StmtId} {m : Method} (tidy : m.Tidy) (body : m.order.toList = before) :
      Literals before [] m m
  | keep {before rest : List StmtId} {s : StmtId} {m n : Method} (tidy : m.Tidy)
      (body : m.order.toList = before ++ s :: rest) (new : s ∉ rest) (same : m.literalAt s = m)
      (run : Literals (before ++ [s]) rest m n) : Literals before (s :: rest) m n
  | make {before gone after : List StmtId} {s : StmtId} {m n : Method} {made : Action}
      (new : s ∉ gone ++ after) (apart : ∀ id ∈ gone, id ∉ after)
      (inert : ∀ t ∈ gone, ∀ target value, m.action t ≠ .assign target value)
      (stands : IsLiteral (m.action s) (gone.map m.action) made)
      (equal : ∃ stmts, m.literalAt s = { m with order := (before ++ s :: after).toArray, stmts })
      (changed : ∀ other, (m.literalAt s).stmt other =
        if other = s then { m.stmt other with action := made } else m.stmt other)
      (run : Literals (before ++ [s]) after (m.literalAt s) n) : Literals before (s :: (gone ++ after)) m n

/-- The pass is such a run. What is ahead are statements that were taken out, which make no literals,
and then the rest of the body. -/
theorem literals_foldl (before skipped : List StmtId) {ahead live : List StmtId} (tidy : m.Tidy)
    (body : m.order.toList = before ++ live) (split : ahead = skipped ++ live)
    (inert : ∀ s ∈ skipped, ∀ target value, m.action s ≠ .assign target value) :
    Literals before live m (ahead.foldl literalAt m) := by
  induction ahead generalizing before skipped live m with
  | nil =>
    obtain ⟨rfl, rfl⟩ := append_eq_nil_iff.mp split.symm
    exact .done tidy (body.trans (append_nil before))
  | cons s rest ih =>
    rw [foldl_cons]
    cases skipped with
    | cons first others =>
      obtain ⟨rfl, rfl⟩ := cons.inj split
      rw [literalAt_of_not_assign (inert s mem_cons_self)]
      exact ih before others tidy body rfl fun t later =>
        inert t (.tail _ later)
    | nil =>
      subst split
      obtain ⟨new, distinct⟩ := nodup_cons.mp (nodup_append.mp (body ▸ tidy.nodup)).2.1
      rcases literalAt_cases tidy body with
        same | ⟨gone, after, made, rfl, writes, stands, tidy', ⟨table, equal⟩, changed⟩
      · rw [same]
        exact .keep tidy body new same (ih (before ++ [s]) [] tidy (by simp [body])
          (nil_append rest).symm (by simp))
      · have inertGone : ∀ t ∈ gone, ∀ target value, m.action t ≠ .assign target value := by
          intro t inside target value assigned
          obtain ⟨array, fills⟩ := writes t inside
          rw [assigned] at fills
          cases fills
        refine .make new (fun id gone_ left => (nodup_append.mp distinct).2.2 id gone_ id left rfl)
          inertGone stands ⟨table, equal⟩ changed
          (ih (before ++ [s]) gone tidy' (by simp [equal]) rfl fun t inside => ?_)
        rw [action, changed, if_neg]
        · exact inertGone t inside
        · rintro rfl
          exact new (mem_append_left _ inside)

theorem Literals.condensed {live : List StmtId} {n : Method} (run : Literals before live m n) :
    ∃ order stmts, n = { m with order := (before ++ order).toArray, stmts } ∧
      Condensed (live.map fun id => (id, m.stmt id)) (order.map fun id => (id, n.stmt id)) ∧
      ∀ id ∉ live, n.stmt id = m.stmt id := by
  induction run with
  | @done before m tidy body =>
    exact ⟨[], m.stmts, by rw [append_nil, ← body], .nil, fun _ _ => rfl⟩
  | @keep before rest s m n tidy body new same run ih =>
    obtain ⟨order, stmts, result, condensed, others⟩ := ih
    refine ⟨s :: order, stmts, by simp [result], ?_, fun id outside => others id ?_⟩
    · rw [map_cons, map_cons, others s new]
      exact .keep _ condensed
    · exact fun inside => outside (.tail _ inside)
  | @make before gone after s m n made new apart inert stands equal changed run ih =>
    obtain ⟨table, equal⟩ := equal
    obtain ⟨order, stmts, result, condensed, others⟩ := ih
    refine ⟨s :: order, stmts, ?_, ?_, fun id outside => ?_⟩
    · rw [result, equal, append_assoc, singleton_append]
    · have afterwards : (after.map fun id => (id, (m.literalAt s).stmt id)) =
          after.map fun id => (id, m.stmt id) := by
        refine map_congr_left fun id inside => ?_
        rw [changed, if_neg]
        rintro rfl
        exact new (mem_append_right _ inside)
      rw [afterwards] at condensed
      rw [map_cons, map_append, map_cons,
        others s fun inside => new (mem_append_right _ inside), changed, if_pos rfl]
      refine .literal ?_ condensed
      rwa [map_map]
    · rw [mem_cons, mem_append, not_or, not_or] at outside
      rw [others id outside.2.2, changed, if_neg outside.1]

theorem makeArrayLiterals_eq (m : Method) :
    m.makeArrayLiterals = m.order.toList.foldl literalAt m := (Array.foldl_toList ..).symm

theorem Tidy.literals_makeArrayLiterals (tidy : m.Tidy) :
    Literals [] m.order.toList m m.makeArrayLiterals := by
  rw [makeArrayLiterals_eq]
  exact literals_foldl [] [] tidy (nil_append _).symm (nil_append _).symm (by simp)

/-- Making array literals keeps what arrays hold. Each literal that is made has the contents that
the statements behind the allocation left in the array, cut down to a primitive element type as
stores do; for references it has the constants that were stored, or null. Nothing else of the method
changes. -/
theorem condensed_makeArrayLiterals {m : Method} (tidy : m.Tidy) :
    Condensed m.body m.makeArrayLiterals.body ∧
      (∀ id ∉ m.order.toList, m.makeArrayLiterals.stmt id = m.stmt id) ∧
      m.makeArrayLiterals = { m with
        order := m.makeArrayLiterals.order, stmts := m.makeArrayLiterals.stmts } := by
  obtain ⟨order, stmts, result, condensed, others⟩ := tidy.literals_makeArrayLiterals.condensed
  refine ⟨?_, others, by rw [result]⟩
  have body : m.makeArrayLiterals.order.toList = order := by rw [result, nil_append]
  rwa [Method.body, Method.body, body]

def byteOf (bits : UInt64) : Expr := .number (.ofDesc "B") bits

def storeByte (array : LocalId) (index value : Int32) : Action :=
  .store (.node (.element (.ofDesc "B")) [.read array, .ofInt index]) (.ofInt value)

/-- Three bytes, one of them stored twice and one not at all, and two floats from a table. -/
def shelf : Method :=
  { owner := "La;", name := "shelf", desc := "()[F", access := ⟨8⟩, params := [], result := "[F"
    locals := #[{ type := .refTo "[B" }, { type := .refTo "[F" }]
    stmts := #[⟨.assign 0 (.node (.newArray "[B") [.ofInt 3]), some 1⟩,
      ⟨storeByte 0 2 5, some 2⟩,
      ⟨storeByte 0 0 300, some 3⟩,
      ⟨storeByte 0 2 7, some 4⟩,
      ⟨.assign 1 (.node (.newArray "[F") [.ofInt 2]), some 5⟩,
      ⟨.fillArray (.read 1) ⟨4, [1065353216, -1082130432]⟩, some 5⟩,
      ⟨.return (some (.read 1)), some 6⟩]
    order := #[0, 1, 2, 3, 4, 5, 6] }

/-- Both arrays become literals, and the return stays. -/
theorem condensed_makeArrayLiterals_shelf :
    shelf.Tidy ∧ Condensed shelf.body shelf.makeArrayLiterals.body ∧
      shelf.makeArrayLiterals.actions =
        [.assign 0 (.node (.arrayLiteral "[B") [byteOf 300, byteOf 0, byteOf 7]),
          .assign 1 (.node (.arrayLiteral "[F")
            [.number (.ofDesc "F") 0x3f800000, .number (.ofDesc "F") 0xbf800000]),
          .return (some (.read 1))] := by
  have tidy : shelf.Tidy := by decide
  exact ⟨tidy, (condensed_makeArrayLiterals tidy).1, by rfl⟩

end Method

end DexLift.Ir
