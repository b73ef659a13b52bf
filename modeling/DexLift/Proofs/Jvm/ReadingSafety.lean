import DexLift.Jvm.Reader
import Mathlib.Tactic.Choose

/-!
# Reading class files that nobody vouches for

Counts, lengths and indices of a class file can be anything. Bytes are taken from inside
the data only, and an index that leads nowhere leads to an empty text. So every class file
is read or refused, with one exception: the type of an initial value is the first letter of
the descriptor, and the descriptor of a field may be such an empty text. A field has an
initial value without a type exactly when reading ends outside the data.
-/

namespace DexLift.Jvm

open List
open Outcome (mapM_of_ok)

namespace Scan

theorem upTo_succ {α : Type} (step : Scan α) (n : Nat) (s : Scanner) : (upTo step (n + 1)).run s =
    if s.failure.isNone then (do return (← step) :: (← upTo step n) : Scan (List α)).run s
    else ([], s) := by
  change (if s.failure.isNone = true then _ else pure [] : Scan (List α)) s = _
  split <;> rfl

end Scan

namespace Parse

/-- A field as it stands in the data. -/
structure FieldShape where
  access : UInt16
  name : Text
  desc : Text
  attributes : List (Text × List UInt8)

namespace FieldShape

/-- A field with an initial value and without a descriptor that tells its type. -/
def IsBare (f : FieldShape) : Prop :=
  f.desc.first? = none ∧ named f.attributes "ConstantValue" ≠ []

def field (p : Pool) (f : FieldShape) : Outcome Field := do
  let values ← (named f.attributes "ConstantValue").mapM (fieldValue p f.desc)
  return {
    access := f.access, name := f.name, desc := f.desc, value := values.getLast?
    signature := textOf p "Signature" f.attributes }

end FieldShape

def shape (p : Pool) : Scan FieldShape := do
  let access ← Scan.u2
  let name := p.text (← Scan.u2)
  let desc := p.text (← Scan.u2)
  return { access, name, desc, attributes := ← attributes p }

/-- What stands in front of the members, up to the pool. -/
def front : Parse (UInt16 × UInt16 × Pool) := do
  let first ← Scan.u4
  if first ≠ magic then
    check
    throw (.failed ⟨[], .classMagic⟩)
  let minor ← Scan.u2
  let major ← Scan.u2
  return (minor, major, ← pool)

/-- What stands between the pool and the fields. -/
def head (p : Pool) : Scan (UInt16 × Text × Text × List Text) := do
  let access ← Scan.u2
  let name := p.className (← Scan.u2)
  let super := p.className (← Scan.u2)
  return (access, name, super, ← Scan.counted do return p.className (← Scan.u2))

/-- The fields that stand in some data, as far as they can be read. -/
def fieldShapes (data : ByteArray) : List FieldShape :=
  match front.run.run { data } with
  | (.ok (_, _, p), s) => ((head p >>= fun _ => Scan.counted (shape p)).run s).1
  | (.error _, _) => []

def tail (minor major : UInt16) (p : Pool) (h : UInt16 × Text × Text × List Text)
    (fields : List Field) : Parse ClassFile := do
  let methods ← Scan.counted (method p)
  let found ← attributes p
  check
  return {
    major, minor, access := h.1, name := h.2.1, super := h.2.2.1, interfaces := h.2.2.2, fields
    methods, source := textOf p "SourceFile" found
    signature := textOf p "Signature" found, pool := p }

theorem classFile_parts : classFile = (do
    let (minor, major, p) ← front
    let h ← head p
    tail minor major p h (← counted (field p))) := by
  unfold classFile front
  rw [bind_assoc]
  refine congrArg _ (funext fun first => ?_)
  split <;> simp only [head, liftM_bind, liftM_pure, bind_assoc, pure_bind] <;> rfl

/-- A value that needs nothing from the scanner. -/
def give {α : Type} (outcome : Outcome α) : Parse α := ExceptT.mk (pure outcome)

theorem mapM_give {α β : Type} (each : α → Outcome β) (values : List α) :
    values.mapM (fun a => give (each a)) = give (values.mapM each) := by
  induction values with
  | nil => rfl
  | cons a values ih =>
    rw [mapM_cons, mapM_cons, ih]
    cases each a with
    | error stop => rfl
    | ok b => cases values.mapM each <;> rfl

theorem field_eq (p : Pool) : field p = (do give ((← shape p).field p)) := by
  have same : field p = (do
      let f ← shape p
      let values ← (named f.attributes "ConstantValue").mapM fun body => give (fieldValue p f.desc body)
      return {
        access := f.access, name := f.name, desc := f.desc, value := values.getLast?
        signature := textOf p "Signature" f.attributes }) := by
    simp only [field, shape, liftM_bind, liftM_pure, bind_assoc, pure_bind]
    rfl
  rw [same]
  refine congrArg _ (funext fun f => ?_)
  rw [mapM_give, FieldShape.field]
  cases (named f.attributes "ConstantValue").mapM (fieldValue p f.desc) <;> rfl

theorem upTo_succ {α : Type} (step : Parse α) (n : Nat) (s : Scanner) :
    (upTo step (n + 1)).run.run s =
      if s.failure.isNone then (do return (← step) :: (← upTo step n) : Parse (List α)).run.run s
      else (.ok [], s) := by
  change (if s.failure.isNone = true then _ else pure [] : Parse (List α)) s = _
  split <;> rfl

theorem lift_run {α : Type} (read : Scan α) (s : Scanner) :
    (read : Parse α).run.run s = (.ok (read.run s).1, (read.run s).2) :=
  rfl

theorem bind_run {α β : Type} (step : Parse α) (next : α → Parse β) (s : Scanner) :
    (step >>= next).run.run s = match step.run.run s with
      | (.ok a, after) => (next a).run.run after
      | (.error stop, after) => (.error stop, after) := by
  change ExceptT.bindCont next (step s).1 (step s).2 = match step s with
    | (.ok a, after) => next a after
    | (.error stop, after) => (.error stop, after)
  rcases step s with ⟨stop | a, after⟩ <;> rfl

theorem upTo_give {α β : Type} (read : Scan α) (value : α → Outcome β) (n : Nat) (s : Scanner) :
    ((upTo (do give (value (← read))) n).run.run s).1 = ((Scan.upTo read n).run s).1.mapM value := by
  induction n generalizing s with
  | zero => rfl
  | succ n ih =>
    rw [upTo_succ, Scan.upTo_succ]
    split
    · have first : (do give (value (← read)) : Parse β).run.run s =
          (value (read.run s).1, (read.run s).2) := rfl
      have all : ((do return (← read) :: (← Scan.upTo read n) : Scan (List α)).run s).1 =
          (read.run s).1 :: ((Scan.upTo read n).run (read.run s).2).1 := rfl
      rw [bind_run, first, all, mapM_cons, ← ih (read.run s).2]
      cases value (read.run s).1 with
      | error stop => rfl
      | ok b =>
        dsimp only
        rw [bind_run]
        rcases (upTo (do give (value (← read))) n).run.run (read.run s).2 with ⟨stop | bs, after⟩ <;> rfl
    · rfl

theorem counted_give {α β : Type} (read : Scan α) (value : α → Outcome β) (s : Scanner) :
    ((counted (do give (value (← read)))).run.run s).1 = ((Scan.counted read).run s).1.mapM value := by
  unfold counted
  rw [bind_run]
  exact upTo_give read value _ _

/-! ## Ends -/

def Refuses {α : Type} (step : Parse α) : Prop :=
  ∀ s stop, (step.run.run s).1 = .error stop → ∃ failure, stop = .failed failure

section Refuses

variable {α β : Type} {step : Parse α} {next : α → Parse β}

theorem Refuses.bind (first : Refuses step) (more : ∀ a, Refuses (next a)) :
    Refuses (step >>= next) := by
  intro s stop ended
  rw [bind_run] at ended
  have here := first s
  rcases result : step.run.run s with ⟨other | a, after⟩
  · rw [result] at ended here
    cases ended
    exact here _ rfl
  · rw [result] at ended
    exact more a after stop ended

theorem refuses_pure (a : α) : Refuses (pure a : Parse α) := by
  intro s stop ended
  cases ended

theorem refuses_read (read : Scan α) : Refuses (read : Parse α) := by
  intro s stop ended
  rw [lift_run] at ended
  cases ended

theorem refuses_throw (failure : Failure) : Refuses (throw (.failed failure) : Parse α) := by
  intro s stop ended
  cases ended
  exact ⟨failure, rfl⟩

theorem refuses_check : Refuses check := by
  refine Refuses.bind (refuses_read _) fun s => ?_
  split
  · exact refuses_throw _
  · exact refuses_pure ()

theorem refuses_constants (count fuel : Nat) (p : Pool) : Refuses (constants count fuel p) := by
  induction fuel generalizing p with
  | zero => exact refuses_pure p
  | succ fuel ih =>
    refine (refuses_read _).bind fun fine => ?_
    split
    · exact refuses_pure p
    · refine (refuses_read _).bind fun tag => (refuses_read _).bind fun c => ?_
      split
      · exact refuses_throw _
      · exact ih _

theorem refuses_front : Refuses front := by
  have pool : Refuses pool := (refuses_read _).bind fun _ =>
    (refuses_constants _ _ _).bind fun _ => refuses_check.bind fun _ => refuses_pure _
  refine (refuses_read _).bind fun first => ?_
  split
  · exact refuses_check.bind fun _ => (refuses_throw _).bind fun _ => (refuses_read _).bind fun _ =>
      (refuses_read _).bind fun _ => pool.bind fun _ => refuses_pure _
  · exact (refuses_read _).bind fun _ => (refuses_read _).bind fun _ => pool.bind fun _ =>
      refuses_pure _

theorem refuses_tail (minor major : UInt16) (p : Pool) (h : UInt16 × Text × Text × List Text)
    (fields : List Field) : Refuses (tail minor major p h fields) :=
  (refuses_read _).bind fun _ => (refuses_read _).bind fun _ => refuses_check.bind fun _ =>
    refuses_pure _

end Refuses

namespace FieldShape

theorem field_of_bare {f : FieldShape} (p : Pool) (bare : f.IsBare) : f.field p = Outcome.crash := by
  obtain ⟨noTag, some⟩ := bare
  obtain ⟨body, bodies, values⟩ := exists_cons_of_ne_nil some
  rw [field, values, mapM_cons, fieldValue, noTag]
  rfl

theorem field_of_typed {f : FieldShape} (p : Pool) (typed : ¬ f.IsBare) :
    ∃ made, f.field p = .ok made := by
  suffices values : ∃ values,
      (named f.attributes "ConstantValue").mapM (fieldValue p f.desc) = .ok values by
    obtain ⟨values, read⟩ := values
    exact ⟨_, by rw [field, read]; rfl⟩
  cases first : f.desc.first? with
  | none =>
    rw [not_ne_iff.mp fun some => typed ⟨first, some⟩]
    exact ⟨[], rfl⟩
  | some tag =>
    have made (body : List UInt8) : ∃ value, fieldValue p f.desc body = .ok value := by
      simp only [fieldValue, first]
      split
      · exact ⟨_, rfl⟩
      · exact ⟨_, rfl⟩
    choose value made using made
    exact ⟨_, mapM_of_ok fun body _ => made body⟩

theorem fields_of_bare (p : Pool) {fields : List FieldShape} (bare : ∃ f ∈ fields, f.IsBare) :
    fields.mapM (field p) = Outcome.crash := by
  induction fields with
  | nil => simp at bare
  | cons f fields ih =>
    rw [mapM_cons]
    simp only [mem_cons, exists_eq_or_imp] at bare
    by_cases here : f.IsBare
    · rw [field_of_bare p here]
      rfl
    · obtain ⟨made, read⟩ := field_of_typed p here
      rw [read, ih (bare.resolve_left here)]
      rfl

theorem fields_of_typed (p : Pool) {fields : List FieldShape} (typed : ∀ f ∈ fields, ¬ f.IsBare) :
    ∃ made, fields.mapM (field p) = .ok made := by
  induction fields with
  | nil => exact ⟨[], rfl⟩
  | cons f fields ih =>
    obtain ⟨made, read⟩ := field_of_typed p (typed f mem_cons_self)
    obtain ⟨more, rest⟩ := ih fun g among => typed g (mem_cons_of_mem f among)
    exact ⟨made :: more, by rw [mapM_cons, read, rest]; rfl⟩

end FieldShape

end Parse

/-- Reading a class file ends outside the data exactly when a field has an initial value and an
empty descriptor; else there is a class or a failure. -/
theorem ClassFile.decode_ends (data : ByteArray) :
    (decode data = .error .crashed ↔ ∃ f ∈ Parse.fieldShapes data, f.IsBare) ∧
    decode data ≠ .error .endless := by
  unfold Parse.fieldShapes decode
  rw [Parse.classFile_parts, Parse.bind_run]
  have refuses := Parse.refuses_front { data }
  rcases result : Parse.front.run.run { data } with ⟨stop | ⟨minor, major, p⟩, s⟩
  · obtain ⟨failure, rfl⟩ := refuses stop (by rw [result])
    simp
  · obtain ⟨h, after, read⟩ : ∃ h after, (Parse.head p).run s = (h, after) := ⟨_, _, rfl⟩
    have shapes : ((Parse.head p >>= fun _ => Scan.counted (Parse.shape p)).run s).1 =
        ((Scan.counted (Parse.shape p)).run after).1 := by
      rw [StateT.run_bind, read]
      rfl
    have fields := Parse.counted_give (Parse.shape p) (Parse.FieldShape.field p) after
    rw [← Parse.field_eq] at fields
    dsimp only
    rw [shapes, Parse.bind_run, Parse.lift_run, read]
    dsimp only
    rw [Parse.bind_run]
    by_cases bare : ∃ f ∈ ((Scan.counted (Parse.shape p)).run after).1, f.IsBare
    · rw [Parse.FieldShape.fields_of_bare p bare] at fields
      rcases counted : (Parse.counted (Parse.field p)).run.run after with ⟨stop | made, later⟩
      all_goals
        rw [counted] at fields
        cases fields
      simp [bare]
    · obtain ⟨made, all⟩ := Parse.FieldShape.fields_of_typed p (by simpa using bare)
      rw [all] at fields
      rcases counted : (Parse.counted (Parse.field p)).run.run after with ⟨stop | made, later⟩
      all_goals
        rw [counted] at fields
        cases fields
      have ends := Parse.refuses_tail minor major p h made later
      dsimp only
      rcases ending : ((Parse.tail minor major p h made).run.run later).1 with stop | c
      · obtain ⟨failure, rfl⟩ := ends stop ending
        simp [bare]
      · simp [bare]

/-- A class file that ends behind its only field, which has an initial value and no descriptor. -/
def bareField : ByteArray :=
  ⟨#[
    202, 254, 186, 190, 0, 0, 0, 52, 0, 2, 1, 0, 13, 67, 111, 110, 115, 116, 97, 110, 116, 86, 97,
    108, 117, 101, 0, 0, 0, 0, 0, 0, 0, 0, 0, 1, 0, 0, 0, 0, 0, 0, 0, 1, 0, 1, 0, 0, 0, 2, 0, 0]⟩

/-- The data end too early to be a class file, but reading them does not come to notice it. -/
theorem ClassFile.decode_bareField : decode bareField = .error .crashed := by
  have ends : (match decode bareField with
      | .error stop => some stop
      | .ok _ => none) = some .crashed := by
    decide +kernel
  rcases decoded : decode bareField with stop | c
  all_goals
    rw [decoded] at ends
    cases ends
  rfl

end DexLift.Jvm
