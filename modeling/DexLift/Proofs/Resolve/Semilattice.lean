import DexLift.Proofs.Resolve.Supertypes

/-!
# Merging as a join

Links from classes to superclasses generate an order of the references: everything
stands below the root, and an array of references below the arrays of what stands above
its elements. In a hierarchy that is a tree, and in which interfaces have no superclass
but the root, merging two references gives the lowest one that stands above both in this
order. It is therefore idempotent, commutative and associative, arrays, interfaces and
unknown classes included.

A link that starts at an array takes no part: an array is merged by its elements alone.
-/

namespace DexLift.Hierarchy

open Descriptor

/-- The order of descriptors that some links between them generate. -/
inductive Generated (link : Text → Text → Prop) : Text → Text → Prop where
  | refl (d : Text) : Generated link d d
  | trans {a b c : Text} (lower : Generated link a b) (upper : Generated link b c) :
      Generated link a c
  | root (d : Text) : Generated link d objectDesc
  | link {d c : Text} (here : link d c) : Generated link d c
  | array {d c : List UInt8} (lower : Descriptor.isReference ⟨d⟩ = true)
      (upper : Descriptor.isReference ⟨c⟩ = true) (elements : Generated link ⟨d⟩ ⟨c⟩) :
      Generated link ⟨Descriptor.bracket :: d⟩ ⟨Descriptor.bracket :: c⟩

def ExtendsClass (h : Hierarchy) (name super : Text) : Prop :=
  name.first? = some Descriptor.letterL ∧ h.Extends name super

/-- Interfaces have no superclass but the root. -/
def BareInterfaces (h : Hierarchy) : Prop :=
  ∀ name super, h.isInterface name = true → h.Extends name super → super = objectDesc

/-- In an order, a descriptor stands above two others and below whatever else does. -/
structure IsLowest (below : Text → Text → Prop) (a b m : Text) : Prop where
  left : below a m
  right : below b m
  least : ∀ c, below a c → below b c → below m c

variable {h : Hierarchy} {link : Text → Text → Prop}

/-! ## The generated order -/

theorem Generated.eq_root (rooted : ∀ c, ¬ link objectDesc c) {d c : Text}
    (order : Generated link d c) (root : d = objectDesc) : c = objectDesc := by
  induction order with
  | refl => exact root
  | trans _ _ lower upper => exact upper (lower root)
  | root => rfl
  | link here => exact absurd (root ▸ here) (rooted _)
  | array => cases root

theorem first?_of_flat {d : Text} (reference : isReference d = true)
    (flat : isArray d = false) : d.first? = some letterL := by
  rw [isReference, Bool.or_eq_true] at reference
  rw [isArray] at flat
  rcases reference with first | bracket
  · exact eq_of_beq first
  · rw [bracket] at flat
    cases flat

theorem IsTree.generated_of_climbs (tree : h.IsTree) {d c : Text}
    (isClass : d.first? = some letterL) (climbs : h.Climbs d c) : Generated h.ExtendsClass d c := by
  induction climbs with
  | refl => exact .refl d
  | @tail b c climbs here ih =>
    have first : b.first? = some letterL := by
      rcases tree.of_climbs climbs with rfl | ⟨first, -⟩
      · exact isClass
      · exact first
    exact .trans ih (.link ⟨first, here⟩)

theorem IsTree.generated_iff (tree : h.IsTree) (bare : h.BareInterfaces) {d c : Text}
    (reference : isReference d = true) : Generated h.ExtendsClass d c ↔ h.Covers c d := by
  constructor
  · intro order
    clear reference
    induction order with
    | refl d => exact .refl d
    | trans _ _ lower upper => exact tree.covers_trans upper lower
    | root d => exact .root d
    | @link d c here =>
      cases interface : h.isInterface d with
      | true => exact bare d c interface here.2 ▸ .root d
      | false => exact .climb (isArray_of_letterL here.1) interface (.single here.2)
    | array lower upper _ ih => exact .array upper lower ih
  · intro covers
    induction covers with
    | refl d => exact .refl d
    | root d => exact .root d
    | climb flat _ climbs => exact tree.generated_of_climbs (first?_of_flat reference flat) climbs
    | array upper lower _ ih =>
      exact .array lower upper (ih lower)

/-! ## Joins -/

theorem IsTree.merge_comm {h : Option Hierarchy} (tree : (known h).IsTree) (a b : Text) :
    merge h a b = merge h b a := by
  obtain ⟨m, merged, join⟩ := tree.merge_spec a b
  obtain ⟨n, other, joinToo⟩ := tree.merge_spec b a
  have same : m = n := tree.covers_antisymm
    ((joinToo m).mpr ((join m).mp (.refl m)).symm) ((join n).mpr ((joinToo n).mp (.refl n)).symm)
  rw [merged, other, same]

theorem IsTree.merge_assoc {h : Option Hierarchy} (tree : (known h).IsTree) (a b c : Text) :
    (do merge h (← merge h a b) c) = (do merge h a (← merge h b c)) := by
  obtain ⟨ab, first, joinFirst⟩ := tree.merge_spec a b
  obtain ⟨bc, second, joinSecond⟩ := tree.merge_spec b c
  obtain ⟨m, merged, join⟩ := tree.merge_spec ab c
  obtain ⟨n, other, joinToo⟩ := tree.merge_spec a bc
  -- Both stand below exactly what stands above all three.
  have above : ∀ d, (known h).Covers d m ↔ (known h).Covers d n := by
    intro d
    rw [join d, joinFirst d, joinToo d, joinSecond d, and_assoc]
  have same : m = n := tree.covers_antisymm ((above m).mp (.refl m)) ((above n).mpr (.refl n))
  change (merge h a b >>= fun ab => merge h ab c) = (merge h b c >>= fun bc => merge h a bc)
  rw [first, second]
  exact merged.trans (same ▸ other.symm)

theorem IsTree.isReference_of_merge {h : Option Hierarchy} (tree : (known h).IsTree) {a b m : Text}
    (reference : isReference b = true) (merged : merge h a b = .ok m) : isReference m = true := by
  obtain ⟨n, found, -, whole⟩ := tree.mergeBytes_spec a.bytes b.bytes
  have same : merge h a b = .ok n := by
    cases h with
    | none => exact (mergeBytes_none a.bytes b.bytes).trans found
    | some h => exact found
  cases merged.symm.trans same
  exact whole reference

/-! ## Checking a hierarchy -/

theorem isTree_of_rank (rank : Text → Nat) (rooted : h.superOf? objectDesc = none)
    (each : ∀ entry ∈ h.supers, rank entry.2 < rank entry.1 ∧
      entry.2.first? = some letterL ∧ h.isInterface entry.2 = false) : h.IsTree := by
  have link : ∀ {name super : Text}, h.Extends name super → rank super < rank name ∧
      super.first? = some letterL ∧ h.isInterface super = false := by
    intro name super here
    obtain ⟨entry, found, rfl⟩ := Option.map_eq_some_iff.mp here
    have same := List.find?_some found
    exact eq_of_beq same ▸ each entry (List.mem_of_find?_eq_some found)
  have falls : ∀ {name super : Text}, Relation.TransGen h.Extends name super →
      rank super < rank name := by
    intro name super line
    induction line with
    | single here => exact (link here).1
    | tail _ here ih => exact Nat.lt_trans (link here).1 ih
  exact ⟨fun name circle => Nat.lt_irrefl _ (falls circle), rooted, fun _ _ here => (link here).2.1,
    fun _ _ here => (link here).2.2⟩

/-- How many classes the line of a class has. -/
def depth (h : Hierarchy) (name : Text) : Nat :=
  match h.ancestors name with
  | .ok line => line.length
  | .error _ => 0

/-! ## The join -/

/-- Merging is the join of the order that the superclasses of classes generate. -/
theorem IsTree.merge_isSemilattice {h : Option Hierarchy} (tree : (known h).IsTree)
    (bare : (known h).BareInterfaces) {a b c : Text} (first : Descriptor.isReference a = true)
    (second : Descriptor.isReference b = true) (third : Descriptor.isReference c = true) :
    (∃ m, merge h a b = .ok m ∧ Descriptor.isReference m = true ∧
      IsLowest (Generated (known h).ExtendsClass) a b m) ∧
    merge h a a = .ok a ∧
    merge h a b = merge h b a ∧
    (do merge h (← merge h a b) c) = (do merge h a (← merge h b c)) ∧
    (∃ m, (do merge h (← merge h a b) c) = .ok m ∧ Descriptor.isReference m = true) ∧
    (Generated (known h).ExtendsClass a b → Generated (known h).ExtendsClass b a → a = b) := by
  obtain ⟨m, merged, join⟩ := tree.merge_spec a b
  have whole := tree.isReference_of_merge second merged
  obtain ⟨above, beside⟩ := (join m).mp (.refl m)
  refine ⟨⟨m, merged, whole, ?_⟩, mergeBytes_self, tree.merge_comm a b, tree.merge_assoc a b c,
    ?_, fun up down => ?_⟩
  · refine ⟨(tree.generated_iff bare first).mpr above, (tree.generated_iff bare second).mpr beside,
      fun d left right => (tree.generated_iff bare whole).mpr ((join d).mpr ⟨?_, ?_⟩)⟩
    · exact (tree.generated_iff bare first).mp left
    · exact (tree.generated_iff bare second).mp right
  · obtain ⟨n, later, -⟩ := tree.merge_spec m c
    change ∃ n, (merge h a b >>= fun ab => merge h ab c) = .ok n ∧ _
    rw [merged]
    exact ⟨n, later, tree.isReference_of_merge third later⟩
  · exact tree.covers_antisymm ((tree.generated_iff bare second).mp down)
      ((tree.generated_iff bare first).mp up)

/-- Two classes below a third, and an interface. -/
def household : Hierarchy :=
  [("La/Base;", objectDesc, false), ("La/X;", "La/Base;", false), ("La/Y;", "La/Base;", false),
    ("La/I;", objectDesc, true)].foldl
    (fun h (name, super, isInterface) => h.add name super isInterface) {}

/-- The interface and arrays of both classes. -/
theorem merge_isSemilattice_household :
    household.IsTree ∧ household.BareInterfaces ∧
    (∃ m, merge (some household) "[La/X;" "[La/Y;" = .ok m ∧
      IsLowest (Generated household.ExtendsClass) "[La/X;" "[La/Y;" m) ∧
    merge (some household) "[La/X;" "[La/Y;" = .ok "[La/Base;" := by
  have tree : (known (some household)).IsTree :=
    isTree_of_rank household.depth (by decide) (by decide)
  have bare : (known (some household)).BareInterfaces := by
    have each : ∀ name ∈ household.interfaces, ∀ super ∈ household.superOf? name,
        super = objectDesc := by decide
    intro name super interface here
    exact each name (List.contains_iff_mem.mp interface) super here
  obtain ⟨⟨m, merged, -, lowest⟩, -⟩ := tree.merge_isSemilattice bare
    (by decide : Descriptor.isReference "[La/X;" = true)
    (by decide : Descriptor.isReference "[La/Y;" = true)
    (by decide : Descriptor.isReference "La/I;" = true)
  exact ⟨tree, bare, ⟨m, merged, lowest⟩, by decide⟩

def oddArray : Hierarchy := ({} : Hierarchy).add "[I" "La;" false

/-- A link that starts at an array is not followed: the array and its superclass merge to the root,
although the superclass stands above both and below the root. -/
theorem merge_oddArray :
    oddArray.IsTree ∧ oddArray.isInterface objectDesc = false ∧ oddArray.BareInterfaces ∧
    merge (some oddArray) "[I" "La;" = .ok objectDesc ∧
    ¬ IsLowest (Generated oddArray.Extends) "[I" "La;" objectDesc := by
  refine ⟨isTree_of_rank oddArray.depth (by decide) (by decide), by decide,
    nofun, by decide, fun lowest => ?_⟩
  have link : oddArray.Extends "[I" "La;" := by
    unfold Extends
    decide
  have rooted : ∀ c, ¬ oddArray.Extends objectDesc c := by
    have none : oddArray.superOf? objectDesc = none := by decide
    intro c here
    cases none.symm.trans here
  have below := lowest.least "La;" (.link link) (.refl _)
  exact absurd (below.eq_root rooted rfl) (by decide)

end DexLift.Hierarchy
