import DexLift.Hierarchy
import Mathlib.Data.List.Nodup
import Mathlib.Data.List.Perm.Subperm
import Mathlib.Logic.Relation

/-!
# Least common supertypes

In a hierarchy without circles the descriptors form a tree under the root class: a
class stands below its superclass, an interface and an array of primitives right below
the root, and an array of references where its elements stand. Merging two descriptors
never goes round for ever and gives the lowest one above both, which therefore does not
depend on the order in which many are merged.
-/

namespace DexLift.Hierarchy

open List Descriptor

variable {name c d a b : Text} {fuel : Nat} {all : List Text}

/-- The superclass of a class is known. -/
def Extends (h : Hierarchy) (name super : Text) : Prop := h.superOf? name = some super

/-- From a class one comes to itself and to its ancestors. -/
abbrev Climbs (h : Hierarchy) : Text → Text → Prop := Relation.ReflTransGen h.Extends

/-- From the class one comes to one that is its own ancestor. -/
def Circles (h : Hierarchy) (name : Text) : Prop :=
  ∃ c, h.Climbs name c ∧ Relation.TransGen h.Extends c c

/-- No class is its own ancestor, the root has no superclass, and superclasses are classes and no
interfaces. -/
structure IsTree (h : Hierarchy) : Prop where
  acyclic : ∀ name, ¬ Relation.TransGen h.Extends name name
  rooted : h.superOf? objectDesc = none
  classes : ∀ name super, h.Extends name super → super.first? = some Descriptor.letterL
  concrete : ∀ name super, h.Extends name super → h.isInterface super = false

variable {h : Hierarchy}

/-! ## Climbing -/

theorem eq_of_climbs (none : h.superOf? name = none) (climbs : h.Climbs name c) : c = name := by
  rcases climbs.cases_head with same | ⟨super, here, -⟩
  · exact same.symm
  · rw [Extends, none] at here
    cases here

theorem climbs_iff {super : Text} (here : h.superOf? name = some super) :
    h.Climbs name c ↔ c = name ∨ h.Climbs super c := by
  rw [Climbs, Relation.ReflTransGen.cases_head_iff]
  constructor
  · rintro (same | ⟨other, there, climbs⟩)
    · exact .inl same.symm
    · obtain rfl : super = other := Option.some.inj (here.symm.trans there)
      exact .inr climbs
  · rintro (same | climbs)
    · exact .inl same.symm
    · exact .inr ⟨super, here, climbs⟩

theorem IsTree.of_climbs (tree : h.IsTree) (climbs : h.Climbs name c) :
    c = name ∨ c.first? = some letterL ∧ h.isInterface c = false := by
  rcases climbs.cases_tail with same | ⟨below, -, here⟩
  · exact .inl same
  · exact .inr ⟨tree.classes _ _ here, tree.concrete _ _ here⟩

theorem IsTree.antisymm (tree : h.IsTree) (up : h.Climbs c d) (down : h.Climbs d c) : c = d := by
  rcases Relation.reflTransGen_iff_eq_or_transGen.mp up with same | strict
  · exact same.symm
  · exact absurd (strict.trans_left down) (tree.acyclic c)

theorem IsTree.not_circles (tree : h.IsTree) (name : Text) : ¬ h.Circles name :=
  fun ⟨c, _, circle⟩ => tree.acyclic c circle

/-- A walk up that runs into no circle is not longer than the list of superclasses; `passed` are the
classes it has come by. -/
theorem exists_ancestorsFrom (free : ¬ h.Circles name) (passed : List Text)
    (distinct : passed.Nodup) (known : passed ⊆ h.supers.map Prod.fst)
    (below : ∀ c ∈ passed, Relation.TransGen h.Extends c name)
    (enough : passed.length + fuel = h.supers.length + 1) :
    ∃ all, h.ancestorsFrom fuel name = .ok all := by
  induction fuel generalizing name passed with
  | zero =>
    have few := (subperm_of_subset distinct known).length_le
    rw [length_map] at few
    omega
  | succ fuel ih =>
    rw [ancestorsFrom]
    cases here : h.superOf? name with
    | none => exact ⟨[name], rfl⟩
    | some super =>
      have listed : name ∈ h.supers.map Prod.fst := by
        obtain ⟨entry, found, -⟩ := Option.map_eq_some_iff.mp here
        have same := find?_some found
        rw [← eq_of_beq same]
        exact mem_map_of_mem (mem_of_find?_eq_some found)
      have fresh : name ∉ passed := fun member => free ⟨name, .refl, below name member⟩
      have onward : ¬ h.Circles super := fun ⟨c, climbs, circle⟩ =>
        free ⟨c, climbs.head here, circle⟩
      obtain ⟨all, above⟩ := ih onward (name :: passed)
        (nodup_cons.mpr ⟨fresh, distinct⟩) (cons_subset.mpr ⟨listed, known⟩)
        (forall_mem_cons.mpr ⟨.single here, fun c member => (below c member).tail here⟩)
        (by rw [length_cons]; omega)
      exact ⟨name :: all, Outcome.bind_ok.mpr ⟨all, above, rfl⟩⟩

theorem mem_ancestorsFrom (found : h.ancestorsFrom fuel name = .ok all) :
    c ∈ all ↔ h.Climbs name c := by
  induction fuel generalizing name all with
  | zero => cases found
  | succ fuel ih =>
    rw [ancestorsFrom] at found
    cases here : h.superOf? name with
    | none =>
      rw [here] at found
      cases found
      rw [mem_singleton]
      exact ⟨fun same => same ▸ .refl, eq_of_climbs here⟩
    | some super =>
      rw [here] at found
      obtain ⟨above, later, found⟩ := Outcome.bind_ok.mp found
      cases found
      rw [mem_cons, ih later, climbs_iff here]

theorem climb_spec {seen : List Text} (enough : h.ancestorsFrom fuel name = .ok all) :
    ∃ c, h.climb seen fuel name = .ok c ∧
      ((c ∈ seen ∧ h.Climbs name c ∧ ∀ d ∈ seen, h.Climbs name d → h.Climbs c d) ∨
        c = objectDesc ∧ ∀ d ∈ seen, ¬ h.Climbs name d) := by
  induction fuel generalizing name all with
  | zero => cases enough
  | succ fuel ih =>
    rw [ancestorsFrom] at enough
    rw [climb]
    by_cases member : seen.contains name = true
    · rw [if_pos member]
      exact ⟨name, rfl, .inl ⟨contains_iff_mem.mp member, .refl, fun _ _ climbs => climbs⟩⟩
    rw [if_neg member]
    have outside : name ∉ seen := fun inside => member (contains_iff_mem.mpr inside)
    cases here : h.superOf? name with
    | none =>
      refine ⟨objectDesc, rfl, .inr ⟨rfl, fun d inside climbs => ?_⟩⟩
      exact outside (eq_of_climbs here climbs ▸ inside)
    | some super =>
      rw [here] at enough
      obtain ⟨above, later, -⟩ := Outcome.bind_ok.mp enough
      have up : ∀ d ∈ seen, h.Climbs name d → h.Climbs super d := fun d inside climbs =>
        ((climbs_iff here).mp climbs).resolve_left fun same => outside (same ▸ inside)
      obtain ⟨c, climbed, first | ⟨root, others⟩⟩ := ih later
      · obtain ⟨inside, climbs, least⟩ := first
        exact ⟨c, climbed, .inl ⟨inside, climbs.head here, fun d member climbs =>
          least d member (up d member climbs)⟩⟩
      · exact ⟨c, climbed, .inr ⟨root, fun d member climbs => others d member (up d member climbs)⟩⟩

theorem exists_ancestors (free : ¬ h.Circles name) :
    ∃ all, h.ancestors name = .ok all ∧ ∀ c, c ∈ all ↔ h.Climbs name c := by
  obtain ⟨all, found⟩ := exists_ancestorsFrom free [] .nil (nil_subset _) nofun
    (Nat.zero_add (h.supers.length + 1))
  exact ⟨all, found, fun c => mem_ancestorsFrom found⟩

/-! ## The order of descriptors -/

/-- A descriptor that values of another one may be given: the same, the root, an ancestor, or an
array of such a descriptor. -/
inductive Covers (h : Hierarchy) : Text → Text → Prop where
  | refl (d : Text) : Covers h d d
  | root (d : Text) : Covers h objectDesc d
  | climb {c d : Text} (flat : Descriptor.isArray d = false) (concrete : h.isInterface d = false)
      (climbs : h.Climbs d c) : Covers h c d
  | array {c d : List UInt8} (upper : Descriptor.isReference ⟨c⟩ = true)
      (lower : Descriptor.isReference ⟨d⟩ = true) (elements : Covers h ⟨c⟩ ⟨d⟩) :
      Covers h ⟨Descriptor.bracket :: c⟩ ⟨Descriptor.bracket :: d⟩

theorem isArray_of_letterL (first : d.first? = some letterL) : isArray d = false := by
  rw [isArray, first]
  decide

theorem IsTree.isArray_of_climbs (tree : h.IsTree) (flat : isArray d = false)
    (climbs : h.Climbs d c) : isArray c = false := by
  rcases tree.of_climbs climbs with rfl | ⟨first, -⟩
  · exact flat
  · exact isArray_of_letterL first

theorem IsTree.isInterface_of_climbs (tree : h.IsTree) (concrete : h.isInterface d = false)
    (climbs : h.Climbs d c) : h.isInterface c = false := by
  rcases tree.of_climbs climbs with rfl | ⟨-, notOne⟩
  · exact concrete
  · exact notOne

theorem covers_class_iff (flat : isArray d = false) (concrete : h.isInterface d = false) :
    h.Covers c d ↔ c = objectDesc ∨ h.Climbs d c := by
  constructor
  · intro covers
    cases covers with
    | refl => exact .inr .refl
    | root => exact .inl rfl
    | climb _ _ climbs => exact .inr climbs
    | array => cases flat
  · rintro (rfl | climbs)
    · exact .root d
    · exact .climb flat concrete climbs

theorem covers_interface_iff (flat : isArray d = false)
    (interface : h.isInterface d = true) : h.Covers c d ↔ c = objectDesc ∨ c = d := by
  constructor
  · intro covers
    cases covers with
    | refl => exact .inr rfl
    | root => exact .inl rfl
    | climb _ concrete => rw [interface] at concrete; cases concrete
    | array => cases flat
  · rintro (rfl | rfl)
    · exact .root d
    · exact .refl c

theorem covers_array_iff {d : List UInt8} :
    h.Covers c ⟨bracket :: d⟩ ↔ c = objectDesc ∨ c = ⟨bracket :: d⟩ ∨
      ∃ e, c = ⟨bracket :: e⟩ ∧ isReference ⟨e⟩ = true ∧
        isReference ⟨d⟩ = true ∧ h.Covers ⟨e⟩ ⟨d⟩ := by
  constructor
  · intro covers
    cases covers with
    | refl => exact .inr (.inl rfl)
    | root => exact .inl rfl
    | climb flat => cases flat
    | array upper lower elements => exact .inr (.inr ⟨_, rfl, upper, lower, elements⟩)
  · rintro (rfl | rfl | ⟨e, rfl, upper, lower, elements⟩)
    · exact .root _
    · exact .refl _
    · exact .array upper lower elements

theorem IsTree.eq_root (tree : h.IsTree) (covers : h.Covers c objectDesc) : c = objectDesc := by
  cases covers with
  | refl | root => rfl
  | climb _ _ climbs => exact eq_of_climbs tree.rooted climbs

theorem IsTree.covers_trans (tree : h.IsTree) (upper : h.Covers c b) (lower : h.Covers b a) :
    h.Covers c a := by
  induction lower generalizing c with
  | refl => exact upper
  | root d => rw [tree.eq_root upper]; exact .root d
  | climb flat concrete climbs =>
    have flatAbove := tree.isArray_of_climbs flat climbs
    have concreteAbove := tree.isInterface_of_climbs concrete climbs
    rcases (covers_class_iff flatAbove concreteAbove).mp upper with rfl | more
    · exact .root _
    · exact .climb flat concrete (climbs.trans more)
  | array above below elements ih =>
    rcases covers_array_iff.mp upper with rfl | rfl | ⟨e, rfl, top, -, covers⟩
    · exact .root _
    · exact .array above below elements
    · exact .array top below (ih covers)

theorem IsTree.covers_antisymm (tree : h.IsTree) (up : h.Covers a b) (down : h.Covers b a) :
    a = b := by
  induction up with
  | refl => rfl
  | root => exact (tree.eq_root down).symm
  | @climb c d flat concrete climbs =>
    have flatAbove := tree.isArray_of_climbs flat climbs
    have concreteAbove := tree.isInterface_of_climbs concrete climbs
    rcases (covers_class_iff flatAbove concreteAbove).mp down with rfl | back
    · exact eq_of_climbs tree.rooted climbs
    · exact (tree.antisymm climbs back).symm
  | @array c d _ _ _ ih =>
    rcases covers_array_iff.mp down with root | same | ⟨e, same, -, -, back⟩
    · cases root
    · exact same.symm
    · cases same
      rw [Text.mk.inj (ih back)]

/-! ## Merging -/

/-- A descriptor that stands below exactly what stands above both. -/
def IsJoin (h : Hierarchy) (a b m : Text) : Prop :=
  ∀ c, h.Covers c m ↔ h.Covers c a ∧ h.Covers c b

section

variable (tree : h.IsTree)

include tree

/-- A descriptor that stands above two is the one that stands above exactly what they do, when
whatever stands above both stands above it. -/
theorem IsTree.isJoin {m : Text} (left : h.Covers m a) (right : h.Covers m b)
    (least : ∀ c, h.Covers c a → h.Covers c b → h.Covers c m) : h.IsJoin a b m := fun c =>
  ⟨fun covers => ⟨tree.covers_trans covers left, tree.covers_trans covers right⟩,
    fun both => least c both.1 both.2⟩

theorem IsTree.isJoin_root (only : ∀ c, h.Covers c a → h.Covers c b → c = objectDesc) :
    h.IsJoin a b objectDesc :=
  tree.isJoin (.root a) (.root b) fun c left right => only c left right ▸ .refl c

theorem IsTree.eq_root_of_interface (differ : a ≠ b) (flatLeft : isArray a = false)
    (flatRight : isArray b = false) (interface : h.isInterface a = true)
    (left : h.Covers c a) (right : h.Covers c b) : c = objectDesc := by
  rcases (covers_interface_iff flatLeft interface).mp left with root | rfl
  · exact root
  · cases both : h.isInterface b with
    | true =>
      exact ((covers_interface_iff flatRight both).mp right).resolve_right differ
    | false =>
      refine ((covers_class_iff flatRight both).mp right).resolve_right fun climbs => ?_
      rw [tree.isInterface_of_climbs both climbs] at interface
      cases interface

theorem IsTree.eq_root_of_array (isArray : isArray a = true)
    (flat : Descriptor.isArray b = false) (left : h.Covers c a) (right : h.Covers c b) :
    c = objectDesc := by
  cases left with
  | refl =>
    cases right with
    | refl => rw [isArray] at flat; cases flat
    | root => rfl
    | climb _ _ climbs =>
      rw [tree.isArray_of_climbs flat climbs] at isArray
      cases isArray
    | array => cases flat
  | root => rfl
  | climb notArray => rw [isArray] at notArray; cases notArray
  | array =>
    cases right with
    | refl => cases flat
    | climb _ _ climbs => cases tree.isArray_of_climbs flat climbs
    | array => cases flat

theorem IsTree.mergeClasses_spec (differ : a ≠ b) (flatLeft : isArray a = false)
    (flatRight : isArray b = false) :
    ∃ m, mergeClasses (some h) a b = .ok m ∧ h.IsJoin a b m ∧ (m = objectDesc ∨ h.Climbs b m) := by
  rw [mergeClasses]
  by_cases interface : (h.isInterface a || h.isInterface b) = true
  · rw [if_pos interface]
    refine ⟨objectDesc, rfl, tree.isJoin_root fun c left right => ?_, .inl rfl⟩
    rcases Bool.or_eq_true_iff.mp interface with first | second
    · exact tree.eq_root_of_interface differ flatLeft flatRight first left right
    · exact tree.eq_root_of_interface (Ne.symm differ) flatRight flatLeft second right left
  rw [if_neg interface]
  rw [Bool.not_eq_true, Bool.or_eq_false_iff] at interface
  obtain ⟨concreteLeft, concreteRight⟩ := interface
  obtain ⟨seen, found, members⟩ := exists_ancestors (tree.not_circles a)
  obtain ⟨line, enough, -⟩ := exists_ancestors (tree.not_circles b)
  obtain ⟨m, climbed, first | ⟨rfl, apart⟩⟩ := climb_spec enough
  · obtain ⟨inside, climbs, least⟩ := first
    refine ⟨m, by rwa [found], ?_, .inr climbs⟩
    refine tree.isJoin (.climb flatLeft concreteLeft ((members m).mp inside))
      (.climb flatRight concreteRight climbs) fun c left right => ?_
    rcases (covers_class_iff flatLeft concreteLeft).mp left with rfl | up
    · exact .root m
    rcases (covers_class_iff flatRight concreteRight).mp right with rfl | other
    · exact .root m
    exact .climb (tree.isArray_of_climbs flatRight climbs)
      (tree.isInterface_of_climbs concreteRight climbs) (least c ((members c).mpr up) other)
  · refine ⟨objectDesc, by rwa [found], ?_, .inl rfl⟩
    refine tree.isJoin_root fun c left right => ?_
    rcases (covers_class_iff flatLeft concreteLeft).mp left with root | up
    · exact root
    rcases (covers_class_iff flatRight concreteRight).mp right with root | other
    · exact root
    exact absurd other (apart c ((members c).mpr up))

theorem IsTree.isReference_of_climbs (climbs : h.Climbs a b)
    (whole : isReference a = true) : isReference b = true := by
  rcases tree.of_climbs climbs with rfl | ⟨first, -⟩
  · exact whole
  · rw [isReference, first]
    rfl

theorem IsTree.mergeFlat_spec (differ : a ≠ b)
    (flat : isArray a = false ∨ isArray b = false) :
    ∃ m, (if isArray a || isArray b then .ok objectDesc
        else mergeClasses (some h) a b : Outcome Text) = .ok m ∧ h.IsJoin a b m ∧
      (isReference b = true → isReference m = true) := by
  have root : isReference objectDesc = true := by decide
  cases left : isArray a with
  | true =>
    have notBoth := flat.resolve_left (by rw [left]; exact Bool.noConfusion)
    exact ⟨objectDesc, rfl, tree.isJoin_root fun c => tree.eq_root_of_array left notBoth,
      fun _ => root⟩
  | false =>
    cases right : isArray b with
    | true =>
      exact ⟨objectDesc, rfl, tree.isJoin_root fun c first second =>
        tree.eq_root_of_array right left second first, fun _ => root⟩
    | false =>
      obtain ⟨m, merged, join, place⟩ := tree.mergeClasses_spec differ left right
      refine ⟨m, merged, join, fun whole => ?_⟩
      rcases place with rfl | climbs
      · exact root
      · exact tree.isReference_of_climbs climbs whole

theorem IsTree.isJoin_of_primitives {a b : List UInt8} (differ : a ≠ b)
    (primitive : (isReference ⟨a⟩ && isReference ⟨b⟩) = false) :
    h.IsJoin ⟨bracket :: a⟩ ⟨bracket :: b⟩ objectDesc := by
  refine tree.isJoin_root fun c left right => ?_
  rcases covers_array_iff.mp left with root | rfl | ⟨e, rfl, upper, lower, elements⟩
  · exact root
  · rcases covers_array_iff.mp right with root | same | ⟨e, same, upper, lower, elements⟩
    · exact root
    · cases same
      exact absurd rfl differ
    · cases same
      rw [upper, lower] at primitive
      cases primitive
  · rcases covers_array_iff.mp right with root | same | ⟨e', same, -, other, -⟩
    · exact root
    · cases same
      rw [upper, lower] at primitive
      cases primitive
    · rw [lower, other] at primitive
      cases primitive

theorem IsTree.isJoin_array {a b m : List UInt8} (left : isReference ⟨a⟩ = true)
    (right : isReference ⟨b⟩ = true) (merged : isReference ⟨m⟩ = true)
    (join : h.IsJoin ⟨a⟩ ⟨b⟩ ⟨m⟩) : h.IsJoin ⟨bracket :: a⟩ ⟨bracket :: b⟩ ⟨bracket :: m⟩ := by
  obtain ⟨above, beside⟩ := (join _).mp (.refl _)
  refine tree.isJoin (.array merged left above) (.array merged right beside) fun c first second => ?_
  -- Above an array of references stand the root and arrays of what stands above its elements.
  have elements : ∀ {d : List UInt8}, isReference ⟨d⟩ = true →
      h.Covers c ⟨bracket :: d⟩ → c = objectDesc ∨
        ∃ e, c = ⟨bracket :: e⟩ ∧ isReference ⟨e⟩ = true ∧ h.Covers ⟨e⟩ ⟨d⟩ := by
    intro d reference covers
    rcases covers_array_iff.mp covers with root | same | ⟨e, same, upper, -, covers⟩
    · exact .inl root
    · exact .inr ⟨d, same, reference, .refl _⟩
    · exact .inr ⟨e, same, upper, covers⟩
  rcases elements left first with rfl | ⟨e, rfl, upper, up⟩
  · exact .root _
  rcases elements right second with root | ⟨e', same, -, other⟩
  · cases root
  cases same
  exact .array upper merged ((join _).mpr ⟨up, other⟩)

end

theorem isArray_iff {as : List UInt8} : isArray ⟨as⟩ = true ↔ ∃ rest, as = bracket :: rest :=
  beq_iff_eq.trans head?_eq_some_iff

section Bytes

variable {h : Option Hierarchy} {as bs : List UInt8}

theorem arrays_of_not_flat (flat : ¬ (isArray ⟨as⟩ = false ∨ isArray ⟨bs⟩ = false)) :
    (∃ rest, as = bracket :: rest) ∧ ∃ rest, bs = bracket :: rest := by
  rwa [not_or, Bool.not_eq_false, Bool.not_eq_false, isArray_iff, isArray_iff] at flat

theorem mergeBytes_self : mergeBytes h as as = .ok ⟨as⟩ := by
  cases as <;> exact if_pos rfl

theorem mergeBytes_of_flat (differ : as ≠ bs)
    (flat : isArray ⟨as⟩ = false ∨ isArray ⟨bs⟩ = false) :
    mergeBytes h as bs = if isArray ⟨as⟩ || isArray ⟨bs⟩ then .ok objectDesc
      else mergeClasses h ⟨as⟩ ⟨bs⟩ := by
  rw [mergeBytes.eq_def]
  split
  next a as b bs =>
    have bracketed : ∀ (b : UInt8) (bs : List UInt8),
        isArray ⟨b :: bs⟩ = true ↔ b = bracket := fun b bs =>
      beq_iff_eq.trans Option.some_inj
    have either : (a = bracket ∨ b = bracket) ↔
        (isArray ⟨a :: as⟩ || isArray ⟨b :: bs⟩) = true := by
      rw [Bool.or_eq_true, bracketed, bracketed]
    have notBoth : ¬(a = bracket ∧ b = bracket) := by grind
    rw [if_neg differ, if_neg notBoth, if_congr either rfl rfl]
  next => rw [if_neg differ]

end Bytes

theorem IsTree.mergeBytes_spec (tree : h.IsTree) (as bs : List UInt8) :
    ∃ m, mergeBytes (some h) as bs = .ok m ∧ h.IsJoin ⟨as⟩ ⟨bs⟩ m ∧
      (isReference ⟨bs⟩ = true → isReference m = true) := by
  by_cases same : as = bs
  · exact same ▸ ⟨⟨as⟩, mergeBytes_self, fun c => and_self_iff.symm, id⟩
  by_cases flat : isArray ⟨as⟩ = false ∨ isArray ⟨bs⟩ = false
  · rw [mergeBytes_of_flat same flat]
    exact tree.mergeFlat_spec (mt Text.mk.inj same) flat
  obtain ⟨⟨as, rfl⟩, ⟨bs, rfl⟩⟩ := arrays_of_not_flat flat
  have differ : as ≠ bs := mt (congrArg (bracket :: ·)) same
  rw [mergeBytes, if_neg same, if_pos ⟨rfl, rfl⟩]
  by_cases references : (isReference ⟨as⟩ && isReference ⟨bs⟩) = true
  · rw [if_pos references]
    obtain ⟨left, right⟩ := Bool.and_eq_true_iff.mp references
    obtain ⟨m, merged, join, whole⟩ := tree.mergeBytes_spec as bs
    rw [merged]
    exact ⟨⟨bracket :: m.bytes⟩, rfl, tree.isJoin_array left right (whole right) join, fun _ => rfl⟩
  · rw [if_neg references]
    exact ⟨objectDesc, rfl, tree.isJoin_of_primitives differ (Bool.eq_false_iff.mpr references),
      fun _ => by decide⟩
termination_by as.length

theorem mergeClasses_none (differ : a ≠ b) :
    mergeClasses none a b = mergeClasses (some ({} : Hierarchy)) a b := by
  have outside : [a].contains b = false := by
    simpa using Ne.symm differ
  change Except.ok objectDesc = climb {} [a] 1 b
  rw [climb, outside]
  rfl

theorem mergeBytes_none (as bs : List UInt8) :
    mergeBytes none as bs = mergeBytes (some {}) as bs := by
  by_cases same : as = bs
  · rw [same, mergeBytes_self, mergeBytes_self]
  by_cases flat : isArray ⟨as⟩ = false ∨ isArray ⟨bs⟩ = false
  · rw [mergeBytes_of_flat same flat, mergeBytes_of_flat same flat,
      mergeClasses_none (mt Text.mk.inj same)]
  obtain ⟨⟨as, rfl⟩, ⟨bs, rfl⟩⟩ := arrays_of_not_flat flat
  have both : bracket = bracket ∧ bracket = bracket :=
    ⟨rfl, rfl⟩
  rw [mergeBytes, mergeBytes, if_neg same, if_neg same, if_pos both, if_pos both,
    mergeBytes_none as bs]
termination_by as.length

def known (h : Option Hierarchy) : Hierarchy := h.getD {}

theorem IsTree.merge_spec {h : Option Hierarchy} (tree : (known h).IsTree) (a b : Text) :
    ∃ m, merge h a b = .ok m ∧ (known h).IsJoin a b m := by
  cases h with
  | none =>
    obtain ⟨m, merged, join, -⟩ := tree.mergeBytes_spec a.bytes b.bytes
    exact ⟨m, (mergeBytes_none a.bytes b.bytes).trans merged, join⟩
  | some h =>
    obtain ⟨m, merged, join, -⟩ := tree.mergeBytes_spec a.bytes b.bytes
    exact ⟨m, merged, join⟩

theorem IsTree.merge_eq_left_iff {h : Option Hierarchy} (tree : (known h).IsTree) :
    merge h c d = .ok c ↔ (known h).Covers c d := by
  obtain ⟨m, merged, join⟩ := tree.merge_spec c d
  rw [merged]
  constructor
  · intro same
    cases same
    exact ((join c).mp (.refl c)).2
  · intro covers
    have above := (join c).mpr ⟨.refl c, covers⟩
    have below := ((join m).mp (.refl m)).1
    rw [tree.covers_antisymm below above]

end DexLift.Hierarchy
