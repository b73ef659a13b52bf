import DexLift.Jvm.ClassFile
import DexLift.Proofs.Jvm.Pool
import Mathlib

/-!
# Room in a pool

A request fails for two reasons only: a text is too long, or the pool is full.
So where texts are short it is enough to count. A step takes at most so many
entries, whatever it finds in the pool already, and has no failure while there
is room for them.
-/

namespace DexLift.Jvm

open List Pool

variable {m n : Nat}

namespace Intern

variable {α β : Type}

/-- A step that adds at most so many entries, and that has no failure when they fit. -/
def Takes (n : Nat) (step : Intern α) : Prop :=
  ∀ p : Pool, p.failure = none → p.entries.size + n ≤ Pool.capacity →
    (step.run p).2.failure = none ∧ (step.run p).2.entries.size ≤ p.entries.size + n

theorem Takes.pure (value : α) : Takes 0 (Pure.pure value : Intern α) :=
  fun _ fine _ => ⟨fine, le_rfl⟩

variable {step : Intern α}

theorem Takes.bind {next : α → Intern β} (first : Takes m step)
    (second : ∀ value, Takes n (next value)) : Takes (m + n) (step >>= next) := by
  intro p fine fits
  obtain ⟨fineFirst, sizeFirst⟩ := first p fine (by omega)
  obtain ⟨fineSecond, sizeSecond⟩ :=
    second (step.run p).1 (step.run p).2 fineFirst (by omega)
  refine ⟨fineSecond, le_trans sizeSecond ?_⟩
  omega

theorem Takes.mono (takes : Takes m step) (fewer : m ≤ n) : Takes n step := by
  intro p fine fits
  obtain ⟨fineAfter, size⟩ := takes p fine (by omega)
  exact ⟨fineAfter, by omega⟩

theorem Takes.mapM {step : α → Intern β} {room : α → Nat} {values : List α}
    (each : ∀ value ∈ values, Takes (room value) (step value)) :
    Takes (values.map room).sum (values.mapM step) := by
  induction values with
  | nil => exact .pure []
  | cons value values ih =>
    have rest := ih fun other member => each other (.tail _ member)
    rw [mapM_cons, map_cons, sum_cons]
    exact (each value (.head _)).bind fun _ => rest.bind fun _ => .pure _

end Intern

namespace Pool

open Intern (Takes)

theorem takes_intern (c : Constant) : Takes (if c.isWide then 2 else 1) (intern c) := by
  intro p fine fits
  simp only [intern, StateT.run, modifyGet, MonadStateOf.modifyGet, StateT.modifyGet]
  cases known : p.index[c]? with
  | some i => exact ⟨fine, Nat.le_add_right _ _⟩
  | none =>
    simp only [Nat.not_lt_of_ge fits, if_false]
    exact ⟨fine, le_of_eq (size_push p c)⟩

section Short

variable {owner name type : Text} (shortOwner : isTooLong owner = false)
  (shortName : isTooLong name = false) (shortType : isTooLong type = false)

include shortName

theorem takes_utf8 : Takes 1 (utf8 name) := by
  rw [utf8, shortName]
  exact takes_intern (.utf8 name)

theorem takes_class : Takes 2 (class_ name) :=
  (takes_utf8 shortName).bind fun text => takes_intern (.class text)

theorem takes_string : Takes 2 (string name) :=
  (takes_utf8 shortName).bind fun text => takes_intern (.string text)

include shortType

theorem takes_nameAndType : Takes 3 (nameAndType name type) :=
  (takes_utf8 shortName).bind fun text =>
    (takes_utf8 shortType).bind fun typeText => takes_intern (.nameAndType text typeText)

include shortOwner

theorem takes_member {kind : UInt16 → UInt16 → Constant} {reference : Intern UInt16}
    (narrow : ∀ a b, (kind a b).isWide = false)
    (asks : reference = do
      let owner ← class_ owner
      intern (kind owner (← nameAndType name type))) : Takes 6 reference := by
  subst asks
  have last : ∀ class_ pair, Takes 1 (intern (kind class_ pair)) := by
    intro class_ pair
    have takes := takes_intern (kind class_ pair)
    rwa [narrow] at takes
  exact (takes_class shortOwner).bind fun class_ =>
    (takes_nameAndType shortName shortType).bind fun pair => last class_ pair

end Short

end Pool

namespace Write

variable {α β : Type}

/-- A step of writing that adds at most so many entries, and that has a value and no failure when
they fit. -/
def Takes (n : Nat) (step : Write α) : Prop :=
  ∀ w : Writing, w.failure = none → w.pool.failure = none →
    w.pool.entries.size + n ≤ Pool.capacity →
    ∃ value after, step.run w = .ok (value, after) ∧ after.failure = none ∧
      after.pool.failure = none ∧ after.pool.entries.size ≤ w.pool.entries.size + n

theorem Takes.pure (value : α) : Takes 0 (Pure.pure value : Write α) :=
  fun w fine finePool _ => ⟨value, w, rfl, fine, finePool, le_rfl⟩

variable {step : Write α} {next : α → Write β}

theorem Takes.bind (first : Takes m step) (second : ∀ value, Takes n (next value)) :
    Takes (m + n) (step >>= next) := by
  intro w fine finePool fits
  obtain ⟨value, middle, once, fineMiddle, finePoolMiddle, size⟩ := first w fine finePool (by omega)
  obtain ⟨result, after, last, fineAfter, finePoolAfter, sizeAfter⟩ :=
    second value middle fineMiddle finePoolMiddle (by omega)
  refine ⟨result, after, ?_, fineAfter, finePoolAfter, by omega⟩
  rwa [StateT.run_bind, once]

theorem Takes.mono (takes : Takes m step) (fewer : m ≤ n) : Takes n step := by
  intro w fine finePool fits
  obtain ⟨value, after, ended, fineAfter, finePoolAfter, size⟩ := takes w fine finePool (by omega)
  exact ⟨value, after, ended, fineAfter, finePoolAfter, by omega⟩

theorem takes_lift_bind {outcome : Outcome α} {value : α} (found : outcome = .ok value)
    (second : Takes n (next value)) : Takes n ((liftM outcome : Write α) >>= next) := by
  subst found
  exact second

theorem takes_intern {step : Jvm.Intern α} (takes : Jvm.Intern.Takes n step) :
    Takes n (intern step) := by
  intro w fine finePool fits
  obtain ⟨fineAfter, size⟩ := takes w.pool finePool fits
  exact ⟨_, _, rfl, fine, fineAfter, size⟩

theorem takes_attributes {list : List Attribute} (small : ∀ a ∈ list, isOversized a = false)
    (short : ∀ a ∈ list, isTooLong a.1 = false) : Takes list.length (attributes list) := by
  have all : list.filter (!isOversized ·) = list := by
    rw [filter_eq_self]
    intro a member
    rw [small a member]
    rfl
  have none_ : oversized? list = none := by
    rw [oversized?, filter_eq_nil_iff.mpr fun a member => Bool.not_eq_true _ ▸ small a member]
    rfl
  have ones : (list.map fun _ => 1).sum = list.length := by
    rw [map_const', sum_replicate_nat, Nat.mul_one]
  have each : ∀ a ∈ list, Jvm.Intern.Takes 1 (do
      return u2 (← utf8 a.1) ++ u4OfNat a.2.length ++ a.2) :=
    fun a member => (takes_utf8 (short a member)).bind fun _ => .pure _
  have encoding : Jvm.Intern.Takes list.length (encodeAttributes list) := by
    unfold encodeAttributes
    rw [all, ← ones]
    exact (Jvm.Intern.Takes.mapM each).bind fun _ => .pure _
  intro w fine finePool fits
  have fineToo : (oversized? list <|> w.failure) = none := by
    rwa [none_]
  exact takes_intern encoding { w with failure := oversized? list <|> w.failure } fineToo finePool fits

end Write

open Write (takes_intern takes_attributes takes_lift_bind)

theorem textAttribute_empty (name : String) : textAttribute name ∅ = pure [] := rfl

theorem annotationAttributes_nil : annotationAttributes [] = pure [] := rfl

/-- A field with short texts and an initial value takes an entry for its name, one for its
descriptor, one for its attribute and those of the value. -/
theorem Field.takes_encode {f : Field} {v : FieldValue} {step : Intern UInt16}
    (plain : f.signature = ∅ ∧ f.annotations = [])
    (short : isTooLong f.name = false ∧ isTooLong f.desc = false)
    (valued : f.value = some v) (found : Field.valueIndex f.desc v = .ok step)
    (takes : Intern.Takes n step) : Write.Takes (1 + (1 + (n + 1))) f.encode := by
  unfold encode
  rw [valued]
  refine (takes_intern (takes_utf8 short.1)).bind fun name =>
    (takes_intern (takes_utf8 short.2)).bind fun desc =>
      takes_lift_bind found ((takes_intern takes).bind fun i => ?_)
  unfold encodeInterned
  rw [plain.1, plain.2, textAttribute_empty, annotationAttributes_nil]
  have last : Write.Takes 1
      (Write.attributes (if i = 0 then [] else [("ConstantValue", u2 i)])) := by
    split
    · exact (takes_attributes (forall_mem_nil _) (forall_mem_nil _)).mono (Nat.zero_le _)
    · exact takes_attributes (forall_mem_singleton.mpr rfl) (forall_mem_singleton.mpr rfl)
  change Write.Takes 1 (do
    return u2 f.access ++ u2 name ++ u2 desc ++
      (← Write.attributes ((if i = 0 then [] else [("ConstantValue", u2 i)]) ++ [] ++ [])))
  rw [append_nil, append_nil]
  exact last.bind fun _ => .pure _

/-- A method with short texts and code that takes no entries takes an entry for its name, one for
its descriptor and one for the attribute of the code. -/
theorem Method.takes_encode {m : Method} {c : Code} {major : UInt16} {bytes : List UInt8}
    (plain : m.throws = [] ∧ m.signature = ∅ ∧ m.annotations = [])
    (short : isTooLong m.name = false ∧ isTooLong m.desc = false)
    (some_ : m.code = some c) (coded : c.encode major = pure bytes)
    (small : isOversized ("Code", bytes) = false) : Write.Takes (1 + (1 + 1)) (m.encode major) := by
  unfold encode
  rw [some_]
  refine (takes_intern (takes_utf8 short.1)).bind fun name =>
    (takes_intern (takes_utf8 short.2)).bind fun desc => ?_
  dsimp only
  rw [coded]
  unfold encodeBehind encodeInterned
  rw [plain.1, plain.2.1, plain.2.2, textAttribute_empty, annotationAttributes_nil]
  change Write.Takes 1 (do
    return u2 m.access ++ u2 name ++ u2 desc ++ (← Write.attributes [("Code", bytes)]))
  exact (takes_attributes (forall_mem_singleton.mpr small)
    (forall_mem_singleton.mpr rfl)).bind fun _ => .pure _

/-- A class with short texts takes two entries for its name, two for that of its superclass and
those of its fields and methods. -/
theorem ClassFile.takes_encodeBody {c : ClassFile}
    (plain : c.interfaces = [] ∧ c.source = ∅ ∧ c.signature = ∅ ∧ c.annotations = [])
    (short : isTooLong c.name = false ∧ isTooLong c.super = false)
    (fields : Write.Takes m (c.fields.mapM Field.encode))
    (methods : Write.Takes n (c.methods.mapM fun method => method.encode c.writtenMajor)) :
    Write.Takes (2 + (2 + (m + n))) c.encodeBody := by
  have last : ∀ name super : UInt16, Write.Takes (m + n) (do
      let fields ← c.fields.mapM Field.encode
      let methods ← c.methods.mapM fun method => method.encode c.writtenMajor
      let attributes ← Write.attributes []
      return u2 c.access ++ u2 name ++ u2 super ++ u2OfNat 0 ++
        [] ++ u2OfNat c.fields.length ++ fields.flatten ++
        u2OfNat c.methods.length ++ methods.flatten ++ attributes) :=
    fun _ _ => fields.bind fun _ => methods.bind fun _ =>
      (takes_attributes (forall_mem_nil _) (forall_mem_nil _)).bind fun _ => .pure _
  unfold encodeBody encodeBehind
  rw [plain.1, plain.2.1, plain.2.2.1, plain.2.2.2, textAttribute_empty, textAttribute_empty,
    annotationAttributes_nil]
  refine (takes_intern (takes_class short.1)).bind fun name => ?_
  split
  · exact ((Write.Takes.pure 0).bind fun super => last name super).mono (by omega)
  · exact (takes_intern (takes_class short.2)).bind fun super => last name super

end DexLift.Jvm
