import DexLift.Jvm.ClassFile
import DexLift.Proofs.Jvm.Assembling

/-!
# Writing a class only adds to its pool

Names, attributes and members are written through the pool. A class that is
written has all the entries its methods were assembled with, at the same indices,
and its pool is not spoiled.
-/

namespace DexLift.Jvm

open Intern (Adds)

/-! ## Attributes -/

variable {c : ClassFile} {p : Pool} {bytes : List UInt8}

theorem adds_encodeAttributes (attributes : List Attribute) : Adds (encodeAttributes attributes) :=
  (Adds.mapM (fun _ => (Pool.adds_utf8 _).bind fun _ => .pure _) _).bind fun _ => .pure _

theorem adds_textAttribute (name : String) (text : Text) : Adds (textAttribute name text) :=
  (Adds.pure _).ite ((Pool.adds_utf8 _).bind fun _ => .pure _)

namespace ElementValue

mutual

theorem adds_encode : (value : ElementValue) → Adds value.encode
  | number tag bits => by
    unfold encode
    exact ((Pool.adds_intern _ rfl).bind fun _ => .pure _).ite <|
      ((Pool.adds_intern _ rfl).bind fun _ => .pure _).ite <|
        ((Pool.adds_intern _ rfl).bind fun _ => .pure _).ite <|
          ((Pool.adds_intern _ rfl).bind fun _ => .pure _).ite (.pure _)
  | string text | .class desc => by
    unfold encode
    exact (Pool.adds_utf8 _).bind fun _ => .pure _
  | enum type name => by
    unfold encode
    exact (Pool.adds_utf8 _).bind fun _ => (Pool.adds_utf8 _).bind fun _ => .pure _
  | nested type elements => by
    unfold encode
    exact (Pool.adds_utf8 _).bind fun _ => (adds_encodeNamed elements).bind fun _ => .pure _
  | array elements => by
    unfold encode
    exact (adds_encodeAll elements).bind fun _ => .pure _

theorem adds_encodeNamed : (elements : List (Text × ElementValue)) → Adds (encodeNamed elements)
  | [] => by
    unfold encodeNamed
    exact .pure _
  | (name, value) :: rest => by
    unfold encodeNamed
    exact (Pool.adds_utf8 _).bind fun _ => (adds_encode value).bind fun _ =>
      (adds_encodeNamed rest).bind fun _ => .pure _

theorem adds_encodeAll : (elements : List ElementValue) → Adds (encodeAll elements)
  | [] => by
    unfold encodeAll
    exact .pure _
  | value :: rest => by
    unfold encodeAll
    exact (adds_encode value).bind fun _ => (adds_encodeAll rest).bind fun _ => .pure _

end

end ElementValue

theorem Annotation.adds_encode (a : Annotation) : Adds a.encode :=
  (Pool.adds_utf8 _).bind fun _ => (ElementValue.adds_encodeNamed _).bind fun _ => .pure _

theorem adds_annotationAttributes (annotations : List Annotation) :
    Adds (annotationAttributes annotations) := by
  have one : ∀ (name : String) (some : List Annotation), Adds (do
      if some.isEmpty then return []
      let pieces ← some.mapM Annotation.encode
      return [(name, u2OfNat some.length ++ pieces.flatten)] : Intern (List Attribute)) :=
    fun _ _ => (Adds.pure _).ite ((Adds.mapM Annotation.adds_encode _).bind fun _ => .pure _)
  exact (one _ _).bind fun _ => (one _ _).bind fun _ => .pure _

/-! ## Members -/

theorem Code.adds_encode (c : Code) (major : UInt16) : Adds (c.encode major) :=
  (adds_encodeAttributes _).bind fun _ => .pure _

namespace Write

def Adds {α : Type} (step : Write α) : Prop :=
  ∀ (w after : Writing) (value : α), step.run w = .ok (value, after) → w.pool.Grows after.pool

variable {α β : Type}

theorem Adds.pure (value : α) : Adds (Pure.pure value : Write α) := by
  intro w after result ended
  cases ended
  exact .refl w.pool

variable {next : α → Write β}

theorem Adds.bind {step : Write α} (first : Adds step) (second : ∀ value, Adds (next value)) :
    Adds (step >>= next) := by
  intro w after result ended
  rw [StateT.run_bind] at ended
  cases once : step.run w with
  | error stop =>
    rw [once] at ended
    cases ended
  | ok middle =>
    obtain ⟨value, between⟩ := middle
    rw [once] at ended
    exact (first w between value once).trans (second value between after result ended)

/-- A step that does not break off. -/
def Goes (step : Write α) : Prop := ∀ w, ∃ result, step.run w = .ok result

theorem Goes.bind {step : Write α} (first : Goes step) (second : ∀ value, Goes (next value)) :
    Goes (step >>= next) := by
  intro w
  obtain ⟨⟨value, middle⟩, once⟩ := first w
  rw [StateT.run_bind, once]
  exact second value middle

theorem Goes.mapM {step : α → Write β} (each : ∀ value, Goes (step value)) (values : List α) :
    Goes (values.mapM step) := by
  induction values with
  | nil => exact fun _ => ⟨_, rfl⟩
  | cons value values ih =>
    rw [List.mapM_cons]
    exact (each value).bind fun _ => ih.bind fun _ _ => ⟨_, rfl⟩

theorem adds_intern {step : Jvm.Intern α} (adds : Intern.Adds step) : Adds (intern step) := by
  intro w after result ended
  cases ended
  exact adds w.pool

theorem adds_attributes (list : List Attribute) : Adds (attributes list) := by
  intro w after result ended
  exact adds_intern (adds_encodeAttributes list)
    { w with failure := oversized? list <|> w.failure } after result ended

theorem adds_lift_bind {outcome : Outcome α}
    (second : ∀ value, outcome = .ok value → Adds (next value)) :
    Adds ((liftM outcome : Write α) >>= next) := by
  cases outcome with
  | error stop =>
    intro w after result ended
    cases ended
  | ok value => exact fun w after result ended => second value rfl w after result ended

theorem Adds.mapM {each : α → Write β} (adds : ∀ value, Adds (each value)) (values : List α) :
    Adds (values.mapM each) := by
  induction values with
  | nil => exact .pure _
  | cons value values ih =>
    rw [List.mapM_cons]
    exact (adds value).bind fun _ => ih.bind fun _ => .pure _

end Write

open Write (adds_intern adds_attributes adds_lift_bind)

/-- What is written of a field once its name, its descriptor and its value are in the pool. -/
theorem Field.adds_encode (f : Field) : Write.Adds f.encode := by
  have index : ∀ desc value step, Field.valueIndex desc value = .ok step → Intern.Adds step := by
    intro desc value step found
    unfold valueIndex at found
    split at found
    · cases found
    · dsimp only at found
      split at found
      · cases found
        exact Pool.adds_intern _ rfl
      · split at found
        · cases found
          exact Pool.adds_intern _ rfl
        · split at found
          · cases found
            exact Pool.adds_intern _ rfl
          · split at found
            · cases found
              exact Pool.adds_intern _ rfl
            · cases found
              exact (Pool.adds_string _).ite (.pure _)
  have last : ∀ name desc value, Write.Adds (f.encodeInterned name desc value) :=
    fun _ _ _ => (adds_intern (adds_textAttribute _ _)).bind fun _ =>
      (adds_intern (adds_annotationAttributes _)).bind fun _ => (adds_attributes _).bind fun _ => .pure _
  unfold Field.encode
  refine (adds_intern (Pool.adds_utf8 _)).bind fun name =>
    (adds_intern (Pool.adds_utf8 _)).bind fun desc => ?_
  cases f.value with
  | none => exact (Write.Adds.pure 0).bind (last name desc)
  | some value =>
    refine adds_lift_bind fun step found => ?_
    exact (adds_intern (index _ _ _ found)).bind (last name desc)

namespace Method

variable (m : Method) (name desc : UInt16) (code : List Attribute)

theorem adds_encodeBehind : Write.Adds (m.encodeBehind name desc code) := by
  have last : ∀ throws, Write.Adds (m.encodeInterned name desc code throws) :=
    fun _ => (adds_intern (adds_textAttribute _ _)).bind fun _ =>
      (adds_intern (adds_annotationAttributes _)).bind fun _ => (adds_attributes _).bind fun _ => .pure _
  unfold encodeBehind
  split
  · exact (Write.Adds.pure []).bind last
  · exact (adds_intern (Adds.mapM Pool.adds_class _)).bind fun _ => (Write.Adds.pure _).bind last

theorem adds_encode (major : UInt16) : Write.Adds (m.encode major) := by
  unfold encode
  refine (adds_intern (Pool.adds_utf8 _)).bind fun name =>
    (adds_intern (Pool.adds_utf8 _)).bind fun desc => ?_
  cases m.code with
  | none => exact (Write.Adds.pure []).bind (m.adds_encodeBehind name desc)
  | some body =>
    refine (adds_intern (body.adds_encode major)).bind fun bytes => ?_
    exact (Write.Adds.pure _).bind (m.adds_encodeBehind name desc)

theorem goes_encode (major : UInt16) : Write.Goes (m.encode major) := by
  have behind : ∀ name desc code, Write.Goes (m.encodeBehind name desc code) := by
    intro name desc code
    unfold encodeBehind
    split <;> exact fun _ => ⟨_, rfl⟩
  unfold encode
  refine Write.Goes.bind (fun _ => ⟨_, rfl⟩) fun name =>
    Write.Goes.bind (fun _ => ⟨_, rfl⟩) fun desc => ?_
  cases m.code with
  | none => exact behind name desc []
  | some code => exact Write.Goes.bind (fun _ => ⟨_, rfl⟩) fun bytes => behind name desc _

end Method

namespace ClassFile

theorem adds_encodeBehind (c : ClassFile) (name super : UInt16) :
    Write.Adds (c.encodeBehind name super) := by
  refine (Write.Adds.mapM (fun name => adds_intern (Pool.adds_class name)) _).bind fun interfaces => ?_
  refine (Write.Adds.mapM Field.adds_encode _).bind fun fields => ?_
  refine (Write.Adds.mapM (fun m => m.adds_encode _) _).bind fun methods => ?_
  refine (adds_intern (adds_textAttribute _ _)).bind fun source => ?_
  refine (adds_intern (adds_textAttribute _ _)).bind fun signature => ?_
  refine (adds_intern (adds_annotationAttributes _)).bind fun annotations => ?_
  exact (adds_attributes _).bind fun attributes => .pure _

theorem adds_encodeBody (c : ClassFile) : Write.Adds c.encodeBody := by
  have named := fun name => adds_intern (Pool.adds_class name)
  unfold encodeBody
  refine (named _).bind fun name => ?_
  split
  · exact (Write.Adds.pure 0).bind fun super => c.adds_encodeBehind name super
  · exact (named _).bind fun super => c.adds_encodeBehind name super

theorem encode_of_body {body : List UInt8}
    (here : c.encodeBody.run { pool := c.pool } = .ok (body, { pool := p })) :
    c.encode = match p.failure with
      | some failure => throw (.failed (failure.under (.detail ("class " ++ c.name))))
      | none => pure (u4 magic ++ u2 c.minor ++ u2 c.writtenMajor ++ p.encoded ++ body, p) := by
  unfold encode
  rw [here]
  rfl

theorem encode_eq_ok (written : c.encode = .ok (bytes, p)) :
    ∃ body, c.encodeBody.run { pool := c.pool } = .ok (body, { pool := p }) ∧ p.failure = none ∧
      bytes = u4 magic ++ u2 c.minor ++ u2 c.writtenMajor ++ p.encoded ++ body := by
  have unfolded := written
  unfold encode at unfolded
  obtain ⟨⟨body, q, oversized⟩, here, rest⟩ := Outcome.bind_ok.mp unfolded
  cases oversized with
  | some failure => cases rest
  | none =>
    rw [encode_of_body here] at written
    cases fine : q.failure with
    | some failure =>
      rw [fine] at written
      cases written
    | none =>
      rw [fine] at written
      cases written
      exact ⟨body, here, fine, rfl⟩

theorem not_isTooLong_super (written : c.encode = .ok (bytes, p)) :
    Pool.isTooLong c.super = false := by
  obtain ⟨body, here, fine, -⟩ := encode_eq_ok written
  unfold encodeBody at here
  rw [StateT.run_bind] at here
  obtain ⟨⟨name, w⟩, -, here⟩ := Outcome.bind_ok.mp here
  dsimp only at here
  split at here
  next empty =>
    rw [Text.ext (List.isEmpty_iff.mp empty)]
    rfl
  next =>
    rw [StateT.run_bind] at here
    obtain ⟨⟨super, v⟩, interned, here⟩ := Outcome.bind_ok.mp here
    cases interned
    by_contra long
    have spoiled : ((Pool.utf8 c.super).run w.pool).2.failure ≠ none := by
      rw [Pool.utf8, if_pos (by simpa using long)]
      exact Pool.fail_ne_none _ _ _
    have adds := Pool.adds_intern (.class ((Pool.utf8 c.super).run w.pool).1) rfl
    exact spoiled ((adds _).fine ((c.adds_encodeBehind _ _ _ _ _ here).fine fine))

/-- Writing a class without fields does not break off. -/
theorem encode_of_fieldless (bare : c.fields = []) :
    (∃ result, c.encode = .ok result) ∨ ∃ failure, c.encode = .error (.failed failure) := by
  have behind : ∀ name super, Write.Goes (c.encodeBehind name super) := by
    intro name super
    unfold encodeBehind
    rw [bare]
    refine (Write.Goes.mapM (fun _ _ => ⟨_, rfl⟩) _).bind fun interfaces => ?_
    refine Write.Goes.bind (fun _ => ⟨_, rfl⟩) fun fields => ?_
    exact (Write.Goes.mapM (fun m => m.goes_encode _) _).bind fun methods _ => ⟨_, rfl⟩
  have goes : Write.Goes c.encodeBody := by
    unfold encodeBody
    refine Write.Goes.bind (fun _ => ⟨_, rfl⟩) fun name => ?_
    split <;> exact Write.Goes.bind (fun _ => ⟨_, rfl⟩) fun super => behind name super
  obtain ⟨⟨body, p, _ | failure⟩, here⟩ := goes { pool := c.pool }
  · rw [encode_of_body here]
    cases p.failure with
    | some failure => exact .inr ⟨_, rfl⟩
    | none => exact .inl ⟨_, rfl⟩
  · refine .inr ⟨failure, ?_⟩
    unfold encode
    rw [here]
    rfl

theorem grows_encode (written : c.encode = .ok (bytes, p)) : c.pool.Grows p ∧ p.failure = none := by
  obtain ⟨body, here, fine, -⟩ := encode_eq_ok written
  exact ⟨c.adds_encodeBody _ _ _ here, fine⟩

end ClassFile

end DexLift.Jvm
