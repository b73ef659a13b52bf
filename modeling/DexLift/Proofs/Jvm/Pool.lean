import DexLift.Jvm.Pool

/-!
# Pools only grow

A step that uses the constant pool may add entries and may leave a failure
behind, but it neither moves an entry nor takes a failure back. So an index that
was handed out stays good for the rest of the class, and so does a failure: once
an entry did not fit, every later step finds the pool spoiled.
-/

namespace DexLift.Jvm

open List

namespace Constant

/-- The entries that a constant takes. -/
def slots (c : Constant) : List Constant := if c.isWide then [c, .unused] else [c]

/-- Whether a constant is written as it should be: it is none of the empty entries, and no text that
is too long. -/
def isProper : Constant → Bool
  | unused => false
  | utf8 text => !Pool.isTooLong text
  | _ => true

end Constant

namespace Pool

variable {p : Pool} {c : Constant}

def Has (p : Pool) (i : UInt16) (c : Constant) : Prop := p.entries[i.toNat]? = some c

/-- The index leads to the entries, there are not too many of them, and a failure was that of an
entry that did not fit. -/
structure Sound (p : Pool) : Prop where
  found : ∀ c i, p.index[c]? = some i → p.Has i c
  bounded : p.entries.size ≤ capacity
  told : ∀ f, p.failure = some f → f.cause = .poolOverflow ∨ f.cause = .stringTooLong

/-- The entries are proper constants in a row, an empty entry in front of all and behind each long
and double. -/
def Regular (p : Pool) : Prop :=
  ∃ constants : List Constant, (∀ c ∈ constants, c.isProper = true) ∧
    p.entries.toList = .unused :: constants.flatMap Constant.slots

theorem regular_empty : Regular {} := ⟨[], forall_mem_nil _, rfl⟩

theorem sound_empty : Sound {} := by
  refine ⟨?_, by decide, ?_⟩
  · intro c i found
    simp at found
  · intro f told
    cases told

structure Grows (p q : Pool) : Prop where
  sound : p.Sound → q.Sound
  keeps : ∀ i c, p.Has i c → q.Has i c
  fails : ∀ f, p.failure = some f → q.failure = some f
  regular : p.Regular → q.Regular

theorem Grows.refl (p : Pool) : p.Grows p := ⟨id, fun _ _ => id, fun _ => id, id⟩

theorem Grows.trans {q r : Pool} (first : p.Grows q) (second : q.Grows r) : p.Grows r :=
  ⟨second.sound ∘ first.sound, fun i c => second.keeps i c ∘ first.keeps i c,
    fun f => second.fails f ∘ first.fails f, second.regular ∘ first.regular⟩

theorem Grows.fine {q : Pool} (grows : p.Grows q) (fine : q.failure = none) : p.failure = none := by
  cases told : p.failure with
  | none => rfl
  | some f =>
    rw [grows.fails f told] at fine
    cases fine

theorem grows_fail (p : Pool) {cause : Cause} (detail : Text)
    (known : cause = .poolOverflow ∨ cause = .stringTooLong) : p.Grows (p.fail cause detail) := by
  refine ⟨?_, fun _ _ => id, ?_, id⟩
  · intro sound
    refine ⟨sound.found, sound.bounded, ?_⟩
    intro f told
    cases earlier : p.failure with
    | none =>
      simp only [fail, earlier] at told
      cases told
      exact known
    | some g =>
      simp only [fail, earlier] at told
      cases told
      exact sound.told _ earlier
  · intro f told
    simp [fail, told]

theorem fail_ne_none (p : Pool) (cause : Cause) (detail : Text) :
    (p.fail cause detail).failure ≠ none := by
  cases earlier : p.failure <;> simp [fail, earlier]

theorem size_push (p : Pool) (c : Constant) :
    (p.push c).entries.size = p.entries.size + if c.isWide then 2 else 1 := by
  unfold push
  split <;> simp_all

theorem getElem?_push (p : Pool) (c : Constant) : (p.push c).entries[p.entries.size]? = some c := by
  unfold push
  split
  · rw [Array.getElem?_push, if_neg (by rw [Array.size_push]; omega), Array.getElem?_push, if_pos rfl]
  · rw [Array.getElem?_push, if_pos rfl]

theorem getElem?_push_of_lt {i : Nat} (old : i < p.entries.size) (c : Constant) :
    (p.push c).entries[i]? = p.entries[i]? := by
  unfold push
  split
  · have different : i ≠ p.entries.size ∧ i ≠ p.entries.size + 1 := by omega
    simp [Array.getElem?_push, different.1, different.2]
  · simp [Array.getElem?_push, Nat.ne_of_lt old]

theorem has_push (fits : p.entries.size + (if c.isWide then 2 else 1) ≤ capacity) :
    (p.push c).Has (UInt16.ofNat p.entries.size) c := by
  have small : p.entries.size < 65536 := by
    have : 1 ≤ if c.isWide then 2 else 1 := by split <;> decide
    unfold capacity at fits
    omega
  have number : (UInt16.ofNat p.entries.size).toNat = p.entries.size := by
    rw [UInt16.toNat_ofNat', Nat.mod_eq_of_lt small]
  rw [Has, number]
  exact getElem?_push p c

theorem toList_push (p : Pool) (c : Constant) :
    (p.push c).entries.toList = p.entries.toList ++ c.slots := by
  unfold push Constant.slots
  split <;> simp

theorem Regular.push (regular : p.Regular) (proper : c.isProper = true) : (p.push c).Regular := by
  obtain ⟨constants, all, rows⟩ := regular
  refine ⟨constants ++ [c], ?_, ?_⟩
  · intro d member
    rcases mem_append.mp member with old | new
    · exact all d old
    · cases mem_singleton.mp new
      exact proper
  · rw [toList_push, rows, flatMap_append, flatMap_singleton, cons_append]

theorem grows_push (proper : c.isProper = true)
    (fits : p.entries.size + (if c.isWide then 2 else 1) ≤ capacity) : p.Grows (p.push c) := by
  have keeps : ∀ i d, p.Has i d → (p.push c).Has i d := by
    intro i d here
    have inside : i.toNat < p.entries.size := (Array.getElem?_eq_some_iff.mp here).1
    rwa [Has, getElem?_push_of_lt inside]
  refine ⟨?_, keeps, fun _ => id, fun regular => regular.push proper⟩
  intro sound
  refine ⟨?_, by rwa [size_push], sound.told⟩
  intro d i found
  have index : (p.push c).index[d]? =
      if c = d ∧ ¬c ∈ p.index then some (UInt16.ofNat p.entries.size) else p.index[d]? := by
    simp [push, Std.HashMap.getElem?_insertIfNew]
  rw [index] at found
  split at found
  next here =>
    cases found
    rw [← here.1]
    exact has_push fits
  next => exact keeps i d (sound.found d i found)

end Pool

namespace Intern

def Adds {α : Type} (step : Intern α) : Prop := ∀ p : Pool, p.Grows (step.run p).2

variable {α β : Type}

theorem Adds.pure (value : α) : Adds (Pure.pure value : Intern α) := fun p => .refl p

theorem run_bind (step : Intern α) (next : α → Intern β) (p : Pool) :
    (step >>= next).run p = (next (step.run p).1).run (step.run p).2 := rfl

variable {step : Intern α}

theorem Adds.bind {step : Intern α} {next : α → Intern β} (first : Adds step)
    (second : ∀ value, Adds (next value)) : Adds (step >>= next) :=
  fun p => (first p).trans (second _ _)

theorem Adds.ite {p : Prop} [Decidable p] {other : Intern α} (first : Adds step)
    (second : Adds other) : Adds (if p then step else other) := by
  split
  · exact first
  · exact second

theorem Adds.mapM {step : α → Intern β} (each : ∀ value, Adds (step value)) (values : List α) :
    Adds (values.mapM step) := by
  induction values with
  | nil => exact .pure []
  | cons value values ih =>
    rw [mapM_cons]
    exact (each value).bind fun _ => ih.bind fun _ => .pure _

end Intern

namespace Pool

open Intern (Adds)

variable {text name type owner : Text} {kind : UInt16 → UInt16 → Constant}

theorem adds_intern (c : Constant) (proper : c.isProper = true) : Adds (intern c) := by
  intro p
  simp only [intern, StateT.run, modifyGet, MonadStateOf.modifyGet, StateT.modifyGet]
  cases known : p.index[c]? with
  | some i => exact .refl p
  | none =>
    by_cases full : p.entries.size + (if c.isWide then 2 else 1) > capacity
    · simp only [full, if_true]
      exact grows_fail p _ (.inl rfl)
    · simp only [full, if_false]
      exact grows_push proper (Nat.le_of_not_gt full)

/-- An entry that is asked for is there, unless the pool is spoiled. -/
theorem has_intern {p : Pool} (sound : p.Sound) {c : Constant}
    (fine : ((intern c).run p).2.failure = none) :
    ((intern c).run p).2.Has ((intern c).run p).1 c := by
  simp only [intern, StateT.run, modifyGet, MonadStateOf.modifyGet, StateT.modifyGet] at fine ⊢
  cases known : p.index[c]? with
  | some i => exact sound.found c i known
  | none =>
    by_cases full : p.entries.size + (if c.isWide then 2 else 1) > capacity
    · simp only [known, full, if_true] at fine
      exact absurd fine (fail_ne_none p _ _)
    · simp only [full, if_false]
      exact has_push (Nat.le_of_not_gt full)

theorem adds_utf8 (text : Text) : Adds (utf8 text) := by
  unfold utf8
  split
  · intro p
    exact grows_fail p _ (.inr rfl)
  next short =>
    refine adds_intern _ ?_
    rwa [Constant.isProper, Bool.not_eq_true', ← Bool.not_eq_true]

/-- A text that is asked for is there, unless the pool is spoiled. -/
theorem has_utf8 {p : Pool} (sound : p.Sound) (fine : ((utf8 text).run p).2.failure = none) :
    ((utf8 text).run p).2.Has ((utf8 text).run p).1 (.utf8 text) := by
  unfold utf8 at fine ⊢
  split at fine
  · exact absurd fine (fail_ne_none p _ _)
  next short =>
    rw [if_neg short]
    exact has_intern sound fine

theorem adds_class (name : Text) : Adds (class_ name) :=
  (adds_utf8 name).bind fun _ => adds_intern _ rfl

theorem adds_string (text : Text) : Adds (string text) :=
  (adds_utf8 text).bind fun _ => adds_intern _ rfl

theorem adds_nameAndType (name type : Text) : Adds (nameAndType name type) :=
  (adds_utf8 name).bind fun _ => (adds_utf8 type).bind fun _ => adds_intern _ rfl

theorem adds_fieldRef (owner name type : Text) : Adds (fieldRef owner name type) :=
  (adds_class owner).bind fun _ => (adds_nameAndType name type).bind fun _ => adds_intern _ rfl

theorem adds_methodRef (owner name type : Text) : Adds (methodRef owner name type) :=
  (adds_class owner).bind fun _ => (adds_nameAndType name type).bind fun _ => adds_intern _ rfl

theorem adds_interfaceMethodRef (owner name type : Text) :
    Adds (interfaceMethodRef owner name type) :=
  (adds_class owner).bind fun _ => (adds_nameAndType name type).bind fun _ => adds_intern _ rfl

def IsClass (p : Pool) (i : UInt16) (name : Text) : Prop :=
  ∃ text, p.Has i (.class text) ∧ p.Has text (.utf8 name)

/-- An index stands for a string. -/
def IsString (p : Pool) (i : UInt16) (value : Text) : Prop :=
  ∃ text, p.Has i (.string text) ∧ p.Has text (.utf8 value)

def IsPair (p : Pool) (i : UInt16) (name type : Text) : Prop :=
  ∃ nameText typeText, p.Has i (.nameAndType nameText typeText) ∧ p.Has nameText (.utf8 name) ∧
    p.Has typeText (.utf8 type)

/-- An index stands for a member of a class; `kind` says which kind of member. -/
def IsMember (p : Pool) (kind : UInt16 → UInt16 → Constant) (i : UInt16)
    (owner name type : Text) : Prop :=
  ∃ ownerClass member, p.Has i (kind ownerClass member) ∧ p.IsClass ownerClass owner ∧
    p.IsPair member name type

/-- An index stands for a method. -/
def IsMethod (p : Pool) (i : UInt16) (owner name type : Text) : Prop :=
  ∃ ownerClass member, p.Has i (.methodRef ownerClass member) ∧ p.IsClass ownerClass owner ∧
    p.IsPair member name type

section Persistence

variable {p q : Pool} (grows : p.Grows q) {i : UInt16}

include grows

theorem IsClass.grow (here : p.IsClass i name) : q.IsClass i name := by
  obtain ⟨text, entry, name⟩ := here
  exact ⟨text, grows.keeps _ _ entry, grows.keeps _ _ name⟩

theorem IsString.grow {value : Text} (here : p.IsString i value) : q.IsString i value := by
  obtain ⟨text, entry, name⟩ := here
  exact ⟨text, grows.keeps _ _ entry, grows.keeps _ _ name⟩

theorem IsPair.grow (here : p.IsPair i name type) : q.IsPair i name type := by
  obtain ⟨nameText, typeText, entry, isName, isType⟩ := here
  exact ⟨nameText, typeText, grows.keeps _ _ entry, grows.keeps _ _ isName, grows.keeps _ _ isType⟩

theorem IsMember.grow (here : p.IsMember kind i owner name type) :
    q.IsMember kind i owner name type := by
  obtain ⟨ownerClass, member, entry, isClass, isPair⟩ := here
  exact ⟨ownerClass, member, grows.keeps _ _ entry, isClass.grow grows, isPair.grow grows⟩

theorem IsMethod.grow (here : p.IsMethod i owner name type) : q.IsMethod i owner name type :=
  IsMember.grow grows here

end Persistence

section Found

variable {p : Pool} (sound : p.Sound)

include sound

theorem isClass_class (fine : ((class_ name).run p).2.failure = none) :
    ((class_ name).run p).2.IsClass ((class_ name).run p).1 name := by
  have later : ((utf8 name).run p).2.Grows ((class_ name).run p).2 := adds_intern _ rfl _
  exact ⟨_, has_intern ((adds_utf8 name p).sound sound) fine,
    later.keeps _ _ (has_utf8 sound (later.fine fine))⟩

theorem isString_string (fine : ((string text).run p).2.failure = none) :
    ((string text).run p).2.IsString ((string text).run p).1 text := by
  have later : ((utf8 text).run p).2.Grows ((string text).run p).2 := adds_intern _ rfl _
  exact ⟨_, has_intern ((adds_utf8 text p).sound sound) fine,
    later.keeps _ _ (has_utf8 sound (later.fine fine))⟩

theorem isPair_nameAndType (fine : ((nameAndType name type).run p).2.failure = none) :
    ((nameAndType name type).run p).2.IsPair ((nameAndType name type).run p).1 name type := by
  let afterName := ((utf8 name).run p).2
  let afterType := ((utf8 type).run afterName).2
  have growsName : p.Grows afterName := adds_utf8 name p
  have growsType : afterName.Grows afterType := adds_utf8 type afterName
  have growsLast : afterType.Grows ((nameAndType name type).run p).2 := adds_intern _ rfl _
  have fineType := growsLast.fine fine
  have soundName := growsName.sound sound
  have isName := has_utf8 sound (growsType.fine fineType)
  have isType := has_utf8 soundName fineType
  exact ⟨((utf8 name).run p).1, ((utf8 type).run afterName).1,
    has_intern (growsType.sound soundName) fine, (growsType.trans growsLast).keeps _ _ isName,
    growsLast.keeps _ _ isType⟩

theorem isMember_intern {reference : Intern UInt16} (proper : ∀ a b, (kind a b).isProper = true)
    (asks : reference = do
      let owner ← class_ owner
      intern (kind owner (← nameAndType name type)))
    (fine : (reference.run p).2.failure = none) :
    (reference.run p).2.IsMember kind (reference.run p).1 owner name type := by
  let ownerIndex := ((class_ owner).run p).1
  let afterOwner := ((class_ owner).run p).2
  let pairIndex := ((nameAndType name type).run afterOwner).1
  let afterPair := ((nameAndType name type).run afterOwner).2
  have run : reference.run p = (intern (kind ownerIndex pairIndex)).run afterPair := by
    rw [asks, Intern.run_bind, Intern.run_bind]
  rw [run] at fine ⊢
  have growsOwner : p.Grows afterOwner := adds_class owner p
  have growsPair : afterOwner.Grows afterPair := adds_nameAndType name type afterOwner
  have growsLast := adds_intern (kind ownerIndex pairIndex) (proper _ _) afterPair
  have finePair := growsLast.fine fine
  have soundOwner := growsOwner.sound sound
  have isOwner := isClass_class sound (growsPair.fine finePair)
  have isPair := isPair_nameAndType soundOwner finePair
  exact ⟨ownerIndex, pairIndex, has_intern (growsPair.sound soundOwner) fine,
    isOwner.grow (growsPair.trans growsLast), isPair.grow growsLast⟩

theorem isMethod_methodRef (fine : ((methodRef owner name type).run p).2.failure = none) :
    ((methodRef owner name type).run p).2.IsMethod ((methodRef owner name type).run p).1
      owner name type :=
  isMember_intern sound (fun _ _ => rfl) rfl fine

end Found

end Pool

end DexLift.Jvm
