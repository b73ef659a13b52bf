import DexLift.Dex.Tree
import DexLift.Proofs.Resolve.Supertypes

/-!
# Circles of superclasses

A file may declare any class as the superclass of any other, a class of its own that
is named like a core class included, and nobody checks that the walk up from a class
comes to an end. Merging therefore ends for all pairs of descriptors exactly when no
class that a walk can begin at runs into a circle; in any other hierarchy there are
two classes that it never comes back from.
-/

namespace DexLift

open List Descriptor

namespace Hierarchy

variable {h : Hierarchy}

/-! ## Walking into a circle -/

theorem circles_iff {name super : Text} (here : h.Extends name super) :
    h.Circles name ↔ h.Circles super := by
  constructor
  · rintro ⟨c, climbs, circle⟩
    rcases (climbs_iff here).mp climbs with rfl | climbs
    · obtain ⟨next, first, back⟩ := Relation.TransGen.head'_iff.mp circle
      obtain rfl : super = next := Option.some.inj (here.symm.trans first)
      exact ⟨c, back, circle⟩
    · exact ⟨c, climbs, circle⟩
  · rintro ⟨c, climbs, circle⟩
    exact ⟨c, climbs.head here, circle⟩

theorem circles_iff_of_climbs {name c : Text} (climbs : h.Climbs name c) :
    h.Circles name ↔ h.Circles c := by
  induction climbs with
  | refl => rfl
  | tail _ here ih => exact ih.trans (circles_iff here)

theorem Circles.exists_super {name : Text} (circles : h.Circles name) :
    ∃ super, h.superOf? name = some super ∧ h.Circles super := by
  cases here : h.superOf? name with
  | some super => exact ⟨super, rfl, (circles_iff here).mp circles⟩
  | none =>
    obtain ⟨c, climbs, circle⟩ := circles
    rw [eq_of_climbs here climbs] at circle
    obtain ⟨next, first, -⟩ := Relation.TransGen.head'_iff.mp circle
    cases here.symm.trans first

theorem Circles.ancestorsFrom_eq {name : Text} (circles : h.Circles name) (fuel : Nat) :
    h.ancestorsFrom fuel name = .error .endless := by
  induction fuel generalizing name with
  | zero => rfl
  | succ fuel ih =>
    obtain ⟨super, here, onward⟩ := circles.exists_super
    rw [ancestorsFrom, here]
    exact congrArg (· >>= fun above => pure (name :: above)) (ih onward)

theorem Circles.climb_eq {name : Text} (circles : h.Circles name) {seen : List Text}
    (free : ∀ c ∈ seen, ¬ h.Circles c) (fuel : Nat) : h.climb seen fuel name = .error .endless := by
  induction fuel generalizing name with
  | zero => rfl
  | succ fuel ih =>
    obtain ⟨super, here, onward⟩ := circles.exists_super
    have outside : ¬ seen.contains name = true := fun inside =>
      free name (contains_iff_mem.mp inside) circles
    rw [climb, if_neg outside, here]
    exact ih onward

/-! ## Merging -/

/-- A class that merging walks up from: no array and no interface. -/
def IsWalked (h : Hierarchy) (name : Text) : Prop :=
  Descriptor.isArray name = false ∧ h.isInterface name = false

theorem exists_mergeClasses {a b : Text} (left : h.isInterface a = false → ¬ h.Circles a)
    (right : h.isInterface b = false → ¬ h.Circles b) : ∃ m, mergeClasses (some h) a b = .ok m := by
  rw [mergeClasses]
  by_cases interface : (h.isInterface a || h.isInterface b) = true
  · rw [if_pos interface]
    exact ⟨objectDesc, rfl⟩
  · rw [if_neg interface]
    rw [Bool.not_eq_true, Bool.or_eq_false_iff] at interface
    obtain ⟨seen, found, -⟩ := exists_ancestors (left interface.1)
    obtain ⟨line, enough, -⟩ := exists_ancestors (right interface.2)
    obtain ⟨m, climbed, -⟩ : ∃ m, h.climb seen (h.supers.length + 1) b = .ok m ∧ _ :=
      climb_spec enough
    rw [found]
    exact ⟨m, climbed⟩

theorem mergeClasses_endless {a b : Text} (left : h.isInterface a = false)
    (right : h.isInterface b = false) (circles : h.Circles a ∨ h.Circles b) :
    mergeClasses (some h) a b = .error .endless := by
  have walked : ¬ (h.isInterface a || h.isInterface b) = true := by
    rw [left, right]
    exact Bool.false_ne_true
  rw [mergeClasses, if_neg walked]
  by_cases first : h.Circles a
  · rw [ancestors, first.ancestorsFrom_eq]
    rfl
  · obtain ⟨seen, found, members⟩ := exists_ancestors first
    rw [found]
    refine (circles.resolve_left first).climb_eq (fun c member circles => ?_) _
    exact first ((circles_iff_of_climbs ((members c).mp member)).mpr circles)

/-- Descriptors are merged when no class that merging walks up from runs into a circle. Arrays of
references are merged where their elements are. -/
theorem exists_mergeBytes
    (free : ∀ name, isReference name = true → h.IsWalked name → ¬ h.Circles name)
    (as bs : List UInt8) (left : isReference ⟨as⟩ = true) (right : isReference ⟨bs⟩ = true) :
    ∃ m, mergeBytes (some h) as bs = .ok m := by
  by_cases same : as = bs
  · exact ⟨⟨as⟩, same ▸ mergeBytes_self⟩
  by_cases flat : isArray ⟨as⟩ = false ∨ isArray ⟨bs⟩ = false
  · rw [mergeBytes_of_flat same flat]
    split
    · exact ⟨objectDesc, rfl⟩
    next classes =>
      rw [Bool.not_eq_true, Bool.or_eq_false_iff] at classes
      exact exists_mergeClasses (fun concrete => free _ left ⟨classes.1, concrete⟩)
        fun concrete => free _ right ⟨classes.2, concrete⟩
  obtain ⟨⟨as, rfl⟩, ⟨bs, rfl⟩⟩ := arrays_of_not_flat flat
  rw [mergeBytes, if_neg same, if_pos ⟨rfl, rfl⟩]
  split
  next references =>
    obtain ⟨first, second⟩ := Bool.and_eq_true_iff.mp references
    obtain ⟨m, merged⟩ := exists_mergeBytes free as bs first second
    rw [merged]
    exact ⟨_, rfl⟩
  · exact ⟨objectDesc, rfl⟩
termination_by as.length

theorem exists_unknown (h : Hierarchy) (name : Text) :
    ∃ other, other ≠ name ∧ isReference other = true ∧ h.IsWalked other := by
  let longest := ((name :: h.interfaces).map Text.length).max?.getD 0
  let other : Text := ⟨letterL :: replicate longest 0⟩
  have longer : ∀ taken ∈ name :: h.interfaces, other ≠ taken := by
    rintro taken member rfl
    have bound : other.length ≤ longest :=
      le_max?_getD_of_mem (mem_map_of_mem member)
    have length : other.length = longest + 1 := by simp [other, Text.length]
    omega
  have unknown : h.isInterface other = false := by
    rw [isInterface, contains_eq_mem, decide_eq_false_iff_not]
    exact fun member => longer other (mem_cons_of_mem name member) rfl
  exact ⟨other, longer name mem_cons_self, rfl, rfl, unknown⟩

/-- Whatever keeps merging from giving a descriptor is a walk that never ends. -/
theorem eq_endless_of_mergeBytes {as bs : List UInt8} {stop : Stop}
    (stopped : mergeBytes (some h) as bs = .error stop) : stop = .endless := by
  by_cases same : as = bs
  · rw [same, mergeBytes_self] at stopped
    cases stopped
  by_cases flat : isArray ⟨as⟩ = false ∨ isArray ⟨bs⟩ = false
  · rw [mergeBytes_of_flat same flat] at stopped
    split at stopped
    · cases stopped
    by_cases free : ¬ h.Circles ⟨as⟩ ∧ ¬ h.Circles ⟨bs⟩
    · obtain ⟨m, merged⟩ := exists_mergeClasses (fun _ => free.1) fun _ => free.2
      cases merged.symm.trans stopped
    by_cases concrete : h.isInterface ⟨as⟩ = false ∧ h.isInterface ⟨bs⟩ = false
    · rw [not_and_or, not_not, not_not] at free
      cases (mergeClasses_endless concrete.1 concrete.2 free).symm.trans stopped
      rfl
    · rw [mergeClasses, if_pos] at stopped
      · cases stopped
      · rwa [not_and_or, Bool.not_eq_false, Bool.not_eq_false, ← Bool.or_eq_true] at concrete
  obtain ⟨⟨as, rfl⟩, ⟨bs, rfl⟩⟩ := arrays_of_not_flat flat
  rw [mergeBytes, if_neg same, if_pos ⟨rfl, rfl⟩] at stopped
  split at stopped
  · cases merged : mergeBytes (some h) as bs with
    | ok m =>
      rw [merged] at stopped
      cases stopped
    | error other =>
      rw [merged] at stopped
      cases stopped
      exact eq_endless_of_mergeBytes merged
  · cases stopped
termination_by as.length

theorem merges_iff (h : Hierarchy) :
    (∀ a b, isReference a = true → isReference b = true →
      ∃ m, merge (some h) a b = .ok m) ↔
    ∀ name, isReference name = true → h.IsWalked name → ¬ h.Circles name := by
  constructor
  · intro merges name reference walked circles
    obtain ⟨other, differ, known, otherWalked⟩ := h.exists_unknown name
    obtain ⟨m, merged⟩ := merges name other reference known
    have flat : mergeBytes (some h) name.bytes other.bytes = mergeClasses (some h) name other := by
      rw [mergeBytes_of_flat (fun same => differ (Text.ext same.symm)) (.inl walked.1)]
      exact if_neg (by rw [walked.1, otherWalked.1]; exact Bool.false_ne_true)
    rw [merge, flat, mergeClasses_endless walked.2 otherWalked.2 (.inl circles)] at merged
    cases merged
  · intro free a b left right
    exact exists_mergeBytes free a.bytes b.bytes left right

end Hierarchy

/-! ## The classes of a file -/

namespace Dex

/-- Whatever classes a file declares, merging over them ends for all pairs of references exactly
when no class that it walks up from runs into a circle, and where it gives no descriptor it never
ends. -/
theorem merges_hierarchy (classes : List ClassNode) :
    ((∀ a b, Descriptor.isReference a = true → Descriptor.isReference b = true →
        ∃ m, Hierarchy.merge (some (hierarchy classes)) a b = .ok m) ↔
      ∀ name, Descriptor.isReference name = true → (hierarchy classes).IsWalked name →
        ¬ (hierarchy classes).Circles name) ∧
    ∀ a b stop, Hierarchy.merge (some (hierarchy classes)) a b = .error stop → stop = .endless :=
  ⟨(hierarchy classes).merges_iff, fun _ _ _ => Hierarchy.eq_endless_of_mergeBytes⟩

def bareClass (index : Nat) (name super : Text) : ClassNode where
  definition := { index, name, access := ⟨1⟩, super }

/-- Two classes that are each other's superclass: merging one of them with a third never ends. A
superclass of the root class does the same to every pair of its subclasses. -/
theorem merge_circle :
    Hierarchy.merge (some (hierarchy [bareClass 0 "LA;" "LB;", bareClass 1 "LB;" "LA;"]))
      "LA;" "LC;" = .error .endless ∧
    Hierarchy.merge (some (hierarchy [bareClass 0 "LA;" objectDesc, bareClass 1 objectDesc "LA;"]))
      "LA;" "LB;" = .error .endless := by
  decide

end Dex

end DexLift
