import DexLift.Jvm.Assembler

/-!
# Slots of a method, counted in its descriptor

A method descriptor has the types of the parameters behind one another, with nothing
between them. No type of a field is the beginning of another one, so each can be cut off
in front of whatever follows it. Counted in the descriptor, the slots of the parameters
and of the result are those of the prototype that the descriptor was made from.
-/

namespace DexLift

open List

namespace Descriptor

variable {b : UInt8} {bytes element : List UInt8}

/-- The letters of the primitive types. -/
def isPrimitive (b : UInt8) : Bool := [66, 67, 68, 70, 73, 74, 83, 90].contains b

/-- Bytes that spell the type of a field: a primitive, a class whose name has no semicolon, or an
array of such a type. -/
inductive IsField : List UInt8 → Prop where
  | primitive {b : UInt8} (letter : isPrimitive b = true) : IsField [b]
  | class (name : List UInt8) (whole : semicolon ∉ name) :
      IsField (letterL :: (name ++ [semicolon]))
  | array {element : List UInt8} (isField : IsField element) : IsField (bracket :: element)

theorem IsField.begins (field : IsField bytes) : ∃ b rest, bytes = b :: rest ∧ b ≠ 41 := by
  cases field with
  | @primitive b letter =>
    refine ⟨b, [], rfl, ?_⟩
    rintro rfl
    cases letter
  | «class» name => exact ⟨letterL, name ++ [semicolon], rfl, by decide⟩
  | @array element => exact ⟨bracket, element, rfl, by decide⟩

theorem IsField.length_pos (field : IsField bytes) : 0 < bytes.length := by
  obtain ⟨b, rest, rfl, -⟩ := field.begins
  exact Nat.succ_pos _

end Descriptor

namespace Jvm.Asm

open Descriptor

variable {bytes : List UInt8} {params : List Text}

/-- Whatever follows a type, the type is cut off as a whole. -/
theorem afterType_append (field : IsField bytes) (rest : List UInt8) :
    afterType (bytes ++ rest) = .ok rest := by
  induction field with
  | @primitive b letter =>
    have noBracket : b ≠ bracket := by
      rintro rfl
      cases letter
    have noClass : b ≠ letterL := by
      rintro rfl
      cases letter
    rw [singleton_append, afterType, if_neg noBracket, if_neg noClass]
  | «class» name whole =>
    have noBracket : letterL ≠ bracket := by decide
    have inside : ∀ b ∈ letterL :: name, (b != semicolon) = true := by
      intro b member
      rw [bne_iff_ne]
      rintro rfl
      rcases mem_cons.mp member with same | later
      · exact absurd same (by decide)
      · exact whole later
    have split : (letterL :: (name ++ [semicolon] ++ rest)).dropWhile (· != semicolon) =
        semicolon :: rest := by
      rw [append_assoc, ← cons_append, dropWhile_append_of_pos inside, singleton_append,
        dropWhile_cons_of_neg (by simp)]
    rw [cons_append, afterType, if_neg noBracket, if_pos rfl, split]
  | array isField ih => rw [cons_append, afterType, if_pos rfl, ih]

theorem paramSlots_close (fuel : Nat) (result : List UInt8) :
    paramSlots (fuel + 1) (41 :: result) = .ok (0, result) := rfl

theorem paramSlots_field {param : Text} {rest result : List UInt8} {fuel more : Nat}
    (field : IsField param.bytes) (counted : paramSlots fuel rest = .ok (more, result)) :
    paramSlots (fuel + 1) (param.bytes ++ rest) = .ok (slots param + more, result) := by
  have behind := afterType_append field rest
  obtain ⟨b, others, spelled, open_⟩ := field.begins
  have whole : b :: (others ++ rest) = param.bytes ++ rest := by rw [spelled, cons_append]
  have length : (others ++ rest).length + 1 - rest.length = param.bytes.length := by
    rw [spelled, length_append, length_cons]
    omega
  have cut : (⟨(b :: (others ++ rest)).take ((others ++ rest).length + 1 - rest.length)⟩ : Text) =
      param := by
    rw [whole, length, take_left]
  rw [← whole] at behind ⊢
  rw [paramSlots, if_neg open_, behind, Outcome.ok_bind, cut, counted]
  rfl

theorem paramSlots_append (fields : ∀ t ∈ params, IsField t.bytes) (result : List UInt8)
    {fuel : Nat} (enough : params.length < fuel) :
    paramSlots fuel (params.flatMap Text.bytes ++ 41 :: result) =
      .ok ((params.map slots).foldr (· + ·) 0, result) := by
  induction params generalizing fuel with
  | nil =>
    obtain ⟨fuel, rfl⟩ := Nat.exists_eq_add_of_lt enough
    exact paramSlots_close _ result
  | cons param params ih =>
    obtain ⟨field, others⟩ := forall_mem_cons.mp fields
    obtain ⟨fuel, rfl⟩ : ∃ n, fuel = n + 1 := ⟨fuel - 1, by omega⟩
    rw [flatMap_cons, append_assoc]
    exact paramSlots_field field (ih others (Nat.lt_of_succ_lt_succ enough))

theorem length_le_flatMap (fields : ∀ t ∈ params, IsField t.bytes) :
    params.length ≤ (params.flatMap Text.bytes).length := by
  induction params with
  | nil => exact Nat.le_refl 0
  | cons param params ih =>
    obtain ⟨field, others⟩ := forall_mem_cons.mp fields
    have positive := field.length_pos
    have rest := ih others
    rw [flatMap_cons, length_cons, length_append]
    omega

theorem bytes_desc (p : Proto) :
    p.desc.bytes = 40 :: (p.params.flatMap Text.bytes ++ 41 :: p.result.bytes) := by
  have opening : (("(" : String) : Text).bytes = [40] := by decide
  have closing : ((")" : String) : Text).bytes = [41] := by decide
  change (("(" : String) : Text).bytes ++ p.params.flatMap Text.bytes ++
    ((")" : String) : Text).bytes ++ p.result.bytes = _
  rw [opening, closing, append_assoc, append_assoc, singleton_append, singleton_append]

/-- The slots that are counted in the descriptor of a prototype are those of its parameters and of
its result, which are none for `V`. The count ends inside the descriptor, whatever the letters in
the names of classes are, and whatever the result is. -/
theorem descSlots_desc (p : Proto) (fields : ∀ t ∈ p.params, IsField t.bytes) :
    descSlots p.desc = .ok (p.paramSlots, slots p.result) := by
  have few := length_le_flatMap fields
  have length : p.desc.length =
      (p.params.flatMap Text.bytes).length + p.result.bytes.length + 2 := by
    rw [Text.length, bytes_desc, length_cons, length_append, length_cons]
    omega
  have enough : p.params.length < p.desc.length := by omega
  have counted := paramSlots_append fields p.result.bytes enough
  rw [descSlots, bytes_desc, tail_cons, counted]
  rfl

/-- Arrays of long, a class with a parenthesis and the letter of a double, and a double. -/
theorem descSlots_desc_misleading :
    let p : Proto := ⟨["[[J", "LJ)D;", "D"], "[D"⟩
    (∀ t ∈ p.params, IsField t.bytes) ∧ p.desc = "([[JLJ)D;D)[D" ∧
      descSlots p.desc = .ok (4, 1) := by
  intro p
  have fields : ∀ t ∈ p.params, IsField t.bytes := by
    intro t member
    simp only [p, mem_cons, not_mem_nil, or_false] at member
    rcases member with rfl | rfl | rfl
    · exact .array (.array (.primitive (b := 74) rfl))
    · exact .class [74, 41, 68] (by decide)
    · exact .primitive (b := 68) rfl
  exact ⟨fields, by decide, descSlots_desc p fields⟩

end Jvm.Asm

end DexLift
