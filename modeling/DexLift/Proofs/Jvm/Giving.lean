import DexLift.Proofs.Jvm.Rereading
import DexLift.Proofs.Jvm.Writing

/-!
# What a step of writing gives

An index that is written means something only together with the pool that is read
back, and that pool is not known before the last entry is in. So what a step gives
is stated for every pool that can be read back in the end. Such statements need no
care for what is added later, and are put together along the steps.
-/

namespace DexLift.Jvm

/-- A pool as it is read back: the entries stand where they stood, and index 0 is empty. -/
structure Pool.Back (p q : Pool) : Prop where
  keeps : ∀ i c, p.Has i c → q.Has i c.reread
  first : q.Has 0 .unused

theorem Pool.Back.earlier {p r q : Pool} (back : r.Back q) (grows : p.Grows r) : p.Back q :=
  ⟨fun i c here => back.keeps i c (grows.keeps i c here), back.first⟩

namespace Intern

variable {α β : Type} {P : Pool → α → Prop} {R : Pool → β → Prop}

structure Gives (step : Intern α) (P : Pool → α → Prop) : Prop where
  adds : Adds step
  holds : ∀ p : Pool, p.Sound → (step.run p).2.failure = none →
    ∀ q, (step.run p).2.Back q → P q (step.run p).1

theorem Gives.pure {value : α} (holds : ∀ q : Pool, q.Has 0 .unused → P q value) :
    Gives (Pure.pure value) P :=
  ⟨.pure value, fun _ _ _ q back => holds q back.first⟩

variable {step : Intern α}

theorem Gives.bind {next : α → Intern β} (first : Gives step P)
    (second : ∀ value, Gives (next value) fun q result => P q value → R q result) :
    Gives (step >>= next) R := by
  refine ⟨first.adds.bind fun value => (second value).adds, ?_⟩
  intro p sound fine q back
  have grows := (second (step.run p).1).adds (step.run p).2
  exact (second _).holds _ ((first.adds p).sound sound) fine q back
    (first.holds p sound (grows.fine fine) q (back.earlier grows))

theorem Gives.mono {Q : Pool → α → Prop} (gives : Gives step P)
    (weaker : ∀ q value, P q value → Q q value) : Gives step Q :=
  ⟨gives.adds, fun p sound fine q back => weaker _ _ (gives.holds p sound fine q back)⟩

theorem Gives.of_adds (adds : Adds step) : Gives step fun _ _ => True :=
  ⟨adds, fun _ _ _ _ _ => trivial⟩

theorem Gives.map {change : α → β} (gives : Gives step P)
    (holds : ∀ q value, P q value → R q (change value)) : Gives (do return change (← step)) R :=
  gives.bind fun _ => .pure fun q _ => holds q _

theorem Gives.mapM {step : α → Intern β} {T : Pool → α → β → Prop} {values : List α}
    (each : ∀ value ∈ values, Gives (step value) fun q result => T q value result) :
    Gives (values.mapM step) fun q results => List.Forall₂ (T q) values results := by
  induction values with
  | nil => exact .pure fun _ _ => .nil
  | cons value values ih =>
    rw [List.mapM_cons]
    refine (each value (.head _)).bind fun result => ?_
    exact (ih fun other member => each other (.tail _ member)).map
      fun q results others here => .cons here others

end Intern

namespace Pool

open Intern (Gives)

theorem gives_intern (c : Constant) (proper : c.isProper = true) :
    Gives (intern c) fun q i => q.Has i c.reread ∧ i ≠ 0 := by
  refine ⟨adds_intern c proper, ?_⟩
  intro p sound fine q back
  have here := back.keeps _ _ (has_intern sound fine)
  refine ⟨here, ?_⟩
  intro zero
  rw [zero] at here
  have empty := here.eq back.first
  cases c with
  | unused => cases proper
  | _ => cases empty

theorem gives_utf8 (text : Text) : Gives (utf8 text) fun q i => q.text i = text.mended := by
  refine ⟨adds_utf8 text, ?_⟩
  intro p sound fine q back
  have here := back.keeps _ _ (has_utf8 sound fine)
  rw [Pool.text, here.entry_eq]
  rfl

theorem gives_class (name : Text) : Gives (class_ name) fun q i => q.className i = name.mended :=
  (gives_utf8 name).bind fun text => (gives_intern (.class text) rfl).mono fun q i here named => by
      rwa [className, here.1.entry_eq]

theorem gives_string (text : Text) : Gives (string text) fun q i =>
    (∃ t, q.Has i (.string t) ∧ q.text t = text.mended) ∧ i ≠ 0 :=
  (gives_utf8 text).bind fun t => (gives_intern (.string t) rfl).mono
    fun _ _ here named => ⟨⟨t, here.1, named⟩, here.2⟩

theorem className_zero {q : Pool} (first : q.Has 0 .unused) : q.className 0 = ∅ := by
  rw [className, first.entry_eq]

end Pool

namespace Write

variable {α β : Type} {P : Pool → α → Prop} {R : Pool → β → Prop}

/-- A step of writing only adds to the pool and forgets no failure, and what it gives is right for
every pool that is read back in the end. -/
structure Gives (step : Write α) (P : Pool → α → Prop) : Prop where
  adds : Adds step
  tells : ∀ (w after : Writing) (value : α), step.run w = .ok (value, after) →
    after.failure = none → w.failure = none
  holds : ∀ (w after : Writing) (value : α), w.pool.Sound → step.run w = .ok (value, after) →
    after.failure = none → after.pool.failure = none → ∀ q, after.pool.Back q → P q value

theorem Gives.pure {value : α} (holds : ∀ q : Pool, q.Has 0 .unused → P q value) :
    Gives (Pure.pure value) P := by
  refine ⟨.pure value, ?_, ?_⟩
  · intro w after result ended fine
    cases ended
    exact fine
  · intro w after result _ ended _ _ q back
    cases ended
    exact holds q back.first

variable {step : Write α} {next : α → Write β}

theorem Gives.bind (first : Gives step P)
    (second : ∀ value, Gives (next value) fun q result => P q value → R q result) :
    Gives (step >>= next) R := by
  have split : ∀ {w after result}, (step >>= next).run w = .ok (result, after) →
      ∃ value middle, step.run w = .ok (value, middle) ∧
        (next value).run middle = .ok (result, after) := by
    intro w after result ended
    rw [StateT.run_bind] at ended
    obtain ⟨⟨value, middle⟩, once, ended⟩ := Outcome.bind_ok.mp ended
    exact ⟨value, middle, once, ended⟩
  refine ⟨first.adds.bind fun value => (second value).adds, ?_, ?_⟩
  · intro w after result ended fine
    obtain ⟨value, middle, once, ended⟩ := split ended
    exact first.tells _ _ _ once ((second value).tells _ _ _ ended fine)
  · intro w after result sound ended fine finePool q back
    obtain ⟨value, middle, once, ended⟩ := split ended
    have grows := (second value).adds _ _ _ ended
    refine (second value).holds _ _ _ ((first.adds _ _ _ once).sound sound) ended fine finePool q
      back ?_
    exact first.holds _ _ _ sound once ((second value).tells _ _ _ ended fine)
      (grows.fine finePool) q (back.earlier grows)

theorem Gives.mono {Q : Pool → α → Prop} (gives : Gives step P)
    (weaker : ∀ q value, P q value → Q q value) : Gives step Q :=
  ⟨gives.adds, gives.tells, fun w after value sound ended fine finePool q back =>
    weaker _ _ (gives.holds w after value sound ended fine finePool q back)⟩

theorem Gives.map {change : α → β} (gives : Gives step P)
    (holds : ∀ q value, P q value → R q (change value)) : Gives (do return change (← step)) R :=
  gives.bind fun _ => .pure fun q _ => holds q _

theorem Gives.mapM {step : α → Write β} {T : Pool → α → β → Prop} {values : List α}
    (each : ∀ value ∈ values, Gives (step value) fun q result => T q value result) :
    Gives (values.mapM step) fun q results => List.Forall₂ (T q) values results := by
  induction values with
  | nil => exact .pure fun _ _ => .nil
  | cons value values ih =>
    rw [List.mapM_cons]
    refine (each value (.head _)).bind fun result => ?_
    exact (ih fun other member => each other (.tail _ member)).map
      fun q results others here => .cons here others

theorem gives_intern {step : Jvm.Intern α} (gives : Jvm.Intern.Gives step P) :
    Gives (intern step) P := by
  refine ⟨adds_intern gives.adds, ?_, ?_⟩
  · intro w after result ended fine
    cases ended
    exact fine
  · intro w after result sound ended _ finePool q back
    cases ended
    exact gives.holds w.pool sound finePool q back

theorem gives_lift_bind {outcome : Outcome α}
    (second : ∀ value, outcome = .ok value → Gives (next value) R) :
    Gives ((liftM outcome : Write α) >>= next) R := by
  cases outcome with
  | error stop =>
    refine ⟨?_, ?_, ?_⟩
    · intro w after result ended
      cases ended
    · intro w after result ended
      cases ended
    · intro w after result _ ended
      cases ended
  | ok value =>
    obtain ⟨adds, tells, holds⟩ := second value rfl
    exact ⟨fun w after result ended => adds w after result ended,
      fun w after result ended => tells w after result ended,
      fun w after result sound ended => holds w after result sound ended⟩

theorem gives_attributes {list : List Attribute} {P : Pool → List UInt8 → Prop}
    (gives : (∀ a ∈ list, isOversized a = false) →
      Jvm.Intern.Gives (encodeAttributes list) P) : Gives (attributes list) P := by
  have small : ∀ {failure : Option Failure}, (oversized? list <|> failure) = none →
      (∀ a ∈ list, isOversized a = false) ∧ failure = none := by
    intro failure fine
    have none_ : oversized? list = none := by grind
    rw [none_] at fine
    rw [oversized?, Option.map_eq_none_iff, List.getLast?_eq_none_iff, List.filter_eq_nil_iff]
      at none_
    exact ⟨fun a member => Bool.not_eq_true _ ▸ none_ a member, fine⟩
  refine ⟨adds_attributes list, ?_, ?_⟩
  · intro w after result ended fine
    cases ended
    exact (small fine).2
  · intro w after result sound ended fine finePool q back
    cases ended
    exact (gives (small fine).1).holds w.pool sound finePool q back

end Write

end DexLift.Jvm
