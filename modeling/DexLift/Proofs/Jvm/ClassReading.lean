import DexLift.Proofs.Jvm.AttributeReading

/-!
# Class files read back

A class that was written is read back as it was: members by their places, and every
name and value by its index in the pool that is read back in front of them. What is
not read back is what is not written, or not looked for.
-/

namespace DexLift.Jvm

open List Parse Scan Pool Text
open Intern (Gives)

/-! ## Fields -/

variable {q : Pool} {desc : Text} {i : UInt16} {names : List Text} {c : ClassFile}

/-- The initial value of a field as it is read back. It has the letter and the width of the field;
of the reference types only strings have one. -/
def FieldValue.reread (desc : Text) (value : FieldValue) : Option FieldValue :=
  desc.first?.bind fun b =>
    if b ∈ [90, 66, 83, 67, 73, 70] then some { tag := b, bits := value.bits.toUInt32.toUInt64 }
    else if b ∈ [74, 68] then some { tag := b, bits := value.bits }
    else if desc = "Ljava/lang/String;" ∧ value.tag = stringTag then
      some { tag := stringTag, text := value.text }
    else none

/-- The field as it is read back: without its annotations. -/
def Field.reread (f : Field) : Field :=
  { access := f.access, name := f.name, desc := f.desc,
    value := f.value.bind (FieldValue.reread f.desc), signature := f.signature }

structure Field.IsUtf8 (f : Field) : Prop where
  name : f.name.isUtf8 = true
  desc : f.desc.isUtf8 = true
  value : ∀ value, f.value = some value → value.text.isUtf8 = true
  signature : f.signature.isUtf8 = true

/-- An index stands for the initial value of a field; index 0 when there is none. -/
def IsValue (q : Pool) (desc : Text) (value : Option FieldValue) (i : UInt16) : Prop :=
  match value with
  | none => i = 0
  | some v => i ≠ 0 ∧ Parse.fieldValue q desc (u2 i) = .ok v

theorem isValue_number {b : UInt8} {c : Constant} (first : desc.first? = some b)
    (here : q.Has i c ∧ i ≠ 0) (noString : ∀ t, c ≠ .string t) :
    IsValue q desc (some { tag := b, bits := c.parts.2.1 }) i := by
  refine ⟨here.2, ?_⟩
  rw [fieldValue, inBody_u2, here.1.entry_eq, first]
  cases c with
  | string t => exact absurd rfl (noString t)
  | _ => rfl

theorem gives_valueIndex {value : FieldValue} {step : Intern UInt16}
    (utf8 : value.text.isUtf8 = true) (found : Field.valueIndex desc value = .ok step) :
    Gives step fun q i => IsValue q desc (value.reread desc) i := by
  unfold Field.valueIndex at found
  unfold FieldValue.reread
  cases first : desc.first? with
  | none =>
    rw [first] at found
    cases found
  | some b =>
    rw [first] at found
    dsimp only [Option.bind_some] at found ⊢
    split at found
    next whole =>
      cases found
      have narrow : b ∈ [90, 66, 83, 67, 73, 70] := mem_append_left [70] whole
      rw [if_pos narrow]
      exact (gives_intern (.integer value.bits.toUInt32) rfl).mono fun q i here =>
        isValue_number first here nofun
    next notWhole =>
    split at found
    next float =>
      cases found
      rw [if_pos (by rw [float]; decide)]
      exact (gives_intern (.float value.bits.toUInt32) rfl).mono fun q i here =>
        isValue_number first here nofun
    next notFloat =>
    have notNarrow : b ∉ [90, 66, 83, 67, 73, 70] := by grind
    rw [if_neg notNarrow]
    split at found
    next long =>
      cases found
      rw [if_pos (by rw [long]; decide)]
      exact (gives_intern (.long value.bits) rfl).mono fun q i here =>
        isValue_number first here nofun
    next notLong =>
    split at found
    next double =>
      cases found
      rw [if_pos (by rw [double]; decide)]
      exact (gives_intern (.double value.bits) rfl).mono fun q i here =>
        isValue_number first here nofun
    next notDouble =>
    have notWide : b ∉ [74, 68] := by grind
    rw [if_neg notWide]
    cases found
    split
    next isString =>
      refine (gives_string value.text).mono ?_
      rintro q i ⟨⟨t, here, leads⟩, some_⟩
      rw [mended_eq utf8] at leads
      refine ⟨some_, ?_⟩
      rw [fieldValue, inBody_u2, here.entry_eq, first, ← leads]
      rfl
    next => exact .pure fun _ _ => rfl

def constantAttributes (i : UInt16) : List Attribute :=
  if i = 0 then [] else [("ConstantValue", u2 i)]

theorem constantAttributes_named (i : UInt16) :
    NamedIn ["ConstantValue"] (constantAttributes i) := by
  unfold constantAttributes
  split
  · exact .of_nil
  · exact namedIn_singleton

theorem length_constantAttributes (i : UInt16) : (constantAttributes i).length ≤ 1 := by
  unfold constantAttributes
  split
  · exact Nat.zero_le _
  · exact le_rfl

theorem reads_values {value : Option FieldValue} (isValue : IsValue q desc value i) {pc : Nat} :
    Reads pc (((constantAttributes i).map Prod.snd).mapM fun body =>
      (ExceptT.mk (pure (fieldValue q desc body)) : Parse FieldValue)) [] value.toList := by
  unfold constantAttributes
  cases value with
  | none =>
    rw [if_pos (show i = 0 from isValue)]
    exact .pure []
  | some v =>
    rw [if_neg isValue.1]
    have one : Reads pc (ExceptT.mk (pure (fieldValue q desc (u2 i)))) [] v := by
      rw [isValue.2]
      exact .pure v
    exact one.nil_bind (.pure [v])

theorem Field.gives_encode {f : Field} (utf8 : f.IsUtf8) :
    Write.Gives f.encode fun q bytes => ∀ pc, Reads pc (field q) bytes f.reread := by
  let value := f.value.bind (FieldValue.reread f.desc)
  have last : ∀ name desc i, Write.Gives (f.encodeInterned name desc i)
      fun q bytes => IsValue q f.desc value i → q.text desc = f.desc → q.text name = f.name →
        ∀ pc, Reads pc (field q) bytes f.reread := by
    intro name desc i
    refine (Write.gives_intern (gives_textAttribute _ _)).bind fun signature =>
      (Write.gives_intern (gives_annotationAttributes _)).bind fun annotations =>
        (gives_attributes (constantAttributes i ++ signature ++ annotations)).map ?_
    intro q attributes reads annotated signed isValue isDesc isName pc
    have isConstant := constantAttributes_named i
    have known : NamedIn attributeNames _ :=
      ((isConstant.append signed.same).append annotated.1).mono (by decide)
    have few : (constantAttributes i ++ signature ++ annotations).length < 65536 := by
      have first := length_constantAttributes i
      have second := signed.few
      have third := annotated.2
      rw [length_append, length_append]
      omega
    have values : named ((constantAttributes i ++ signature ++ annotations).map readAttribute)
        "ConstantValue" = _ := named_group (by rw [append_assoc]; rfl) namedIn_nil isConstant
      (signed.same.append annotated.1) (by decide)
    have signatures : named
        ((constantAttributes i ++ signature ++ annotations).map readAttribute) "Signature" = _ :=
      named_group (append_assoc _ _ _) isConstant signed.same annotated.1 (by decide)
    have back : ({ access := f.access, name := q.text name, desc := f.desc
                   value := value.toList.getLast?
                   signature := textOf q "Signature"
                     ((constantAttributes i ++ signature ++ annotations).map readAttribute) } : Field) =
        f.reread := by
      have last : value.toList.getLast? = value := by cases value <;> rfl
      rw [signed.leads _ signatures, mended_eq utf8.signature, isName, last]
      rfl
    rw [append_assoc, append_assoc]
    refine (reads_u2 f.access).lift.bind ((reads_u2 name).lift.bind
      ((reads_u2 desc).lift.bind ((reads known few _).lift.bind_nil ?_)))
    rw [values, isDesc]
    refine (reads_values isValue).nil_bind ?_
    rw [← back]
    exact .pure _
  unfold encode
  refine (Write.gives_intern (gives_utf8 _)).bind fun name => ?_
  refine (Write.gives_intern (gives_utf8 _)).bind fun desc => ?_
  have valued : ∀ {step : Write UInt16}, Write.Gives step (fun q i => IsValue q f.desc value i) →
      Write.Gives (step >>= f.encodeInterned name desc) fun q bytes =>
        q.text desc = f.desc.mended → q.text name = f.name.mended →
          ∀ pc, Reads pc (field q) bytes f.reread := by
    intro step gives
    refine gives.bind fun i => (last name desc i).mono ?_
    intro q bytes reads isValue isDesc isName
    rw [mended_eq utf8.desc] at isDesc
    rw [mended_eq utf8.name] at isName
    exact reads isValue isDesc isName
  cases here : f.value with
  | none =>
    refine valued (.pure fun q _ => ?_)
    rw [show value = none by rw [show value = f.value.bind _ from rfl, here]; rfl]
    rfl
  | some v =>
    refine Write.gives_lift_bind fun step found => ?_
    refine valued (Write.gives_intern ?_)
    rw [show value = v.reread f.desc by rw [show value = f.value.bind _ from rfl, here]; rfl]
    exact gives_valueIndex (utf8.value v here) found

/-! ## Methods -/

/-- The method as it is read back: without its annotations. -/
def Method.reread (m : Method) (major : UInt16) : Method :=
  { access := m.access, name := m.name, desc := m.desc,
    code := m.code.map fun c => c.reread major, throws := m.throws, signature := m.signature }

structure Method.IsUtf8 (m : Method) : Prop where
  name : m.name.isUtf8 = true
  desc : m.desc.isUtf8 = true
  throws : ∀ name ∈ m.throws, name.isUtf8 = true
  signature : m.signature.isUtf8 = true

structure Method.Fits (m : Method) : Prop where
  code : ∀ c, m.code = some c → c.Fits
  throws : m.throws.length < 65536

structure IsCodeAttribute (q : Pool) (code : Option Code) (list : List Attribute) : Prop where
  same : NamedIn ["Code"] list
  few : list.length ≤ 1
  leads : (list.map Prod.snd).getLast?.map (Parse.code q) = code

structure IsThrowsAttribute (q : Pool) (throws : List Text) (list : List Attribute) : Prop where
  same : NamedIn ["Exceptions"] list
  few : list.length ≤ 1
  leads : (list.map Prod.snd).flatMap (fun body =>
    inBody body (Scan.counted do return q.className (← Scan.u2))) = throws

theorem reads_classes {indices : List UInt16} (small : names.length < 65536)
    (each : Forall₂ (fun name i => q.className i = name) names indices) (pc : Nat) :
    Scan.Reads pc (Scan.counted do return q.className (← Scan.u2))
      (u2OfNat names.length ++ indices.flatMap u2) names := by
  have values : indices.map q.className = names := by
    induction each with
    | nil => rfl
    | cons first _ ih =>
      rw [map_cons, first, ih (Nat.lt_of_succ_lt small)]
  rw [each.length_eq] at small ⊢
  have reads := reads_table pc small fun i (_ : i ∈ indices) _ =>
    (reads_u2 i).map q.className
  rwa [values] at reads

theorem gives_classes (utf8 : ∀ name ∈ names, name.isUtf8 = true) :
    Gives (names.mapM class_) fun q indices =>
      Forall₂ (fun name i => q.className i = name) names indices :=
  .mapM fun name member => (gives_class name).mono fun q i here => by
    rwa [mended_eq (utf8 name member)] at here

theorem Method.gives_encode {m : Method} (utf8 : m.IsUtf8) (fits : m.Fits) (major : UInt16) :
    Write.Gives (m.encode major) fun q bytes =>
      ∀ pc, Scan.Reads pc (method q) bytes (m.reread major) := by
  have last : ∀ name desc code throws, Write.Gives (m.encodeInterned name desc code throws)
      fun q bytes => IsThrowsAttribute q m.throws throws →
        IsCodeAttribute q (m.code.map fun c => c.reread major) code →
        q.text desc = m.desc.mended → q.text name = m.name.mended →
        ∀ pc, Scan.Reads pc (method q) bytes (m.reread major) := by
    intro name desc code throws
    refine (Write.gives_intern (gives_textAttribute _ _)).bind fun signature =>
      (Write.gives_intern (gives_annotationAttributes _)).bind fun annotations =>
        (gives_attributes (code ++ throws ++ signature ++ annotations)).map ?_
    intro q attributes reads annotated signed isThrows isCode isDesc isName pc
    rw [mended_eq utf8.desc] at isDesc
    rw [mended_eq utf8.name] at isName
    have known : NamedIn attributeNames _ :=
      (((isCode.same.append isThrows.same).append signed.same).append annotated.1).mono (by decide)
    have few : (code ++ throws ++ signature ++ annotations).length < 65536 := by
      have first := isCode.few
      have second := isThrows.few
      have third := signed.few
      have fourth := annotated.2
      rw [length_append, length_append, length_append]
      omega
    have codes : named ((code ++ throws ++ signature ++ annotations).map readAttribute)
        "Code" = _ := named_group (by simp only [append_assoc]; rfl) namedIn_nil isCode.same
      ((isThrows.same.append signed.same).append annotated.1) (by decide)
    have exceptions : named ((code ++ throws ++ signature ++ annotations).map readAttribute)
        "Exceptions" = _ := named_group (by simp only [append_assoc]) isCode.same
      isThrows.same (signed.same.append annotated.1) (by decide)
    have signatures : named ((code ++ throws ++ signature ++ annotations).map readAttribute)
        "Signature" = _ := named_group (append_assoc _ _ _)
      (isCode.same.append isThrows.same) signed.same annotated.1 (by decide)
    rw [append_assoc, append_assoc]
    refine (reads_u2 m.access).bind ((reads_u2 name).bind
      ((reads_u2 desc).bind ((reads known few _).bind_nil ?_)))
    rw [codes, exceptions, isCode.leads, isThrows.leads, signed.leads _ signatures,
      mended_eq utf8.signature, isName, isDesc]
    exact .pure _
  have throwing : ∀ name desc code, Write.Gives (m.encodeBehind name desc code)
      fun q bytes => IsCodeAttribute q (m.code.map fun c => c.reread major) code →
        q.text desc = m.desc.mended → q.text name = m.name.mended →
        ∀ pc, Scan.Reads pc (method q) bytes (m.reread major) := by
    intro name desc code
    unfold encodeBehind
    split
    next empty =>
      refine (Write.Gives.pure fun q _ => ?_).bind fun throws => last name desc code throws
      rw [isEmpty_iff.mp empty]
      exact ⟨.of_nil, Nat.zero_le _, rfl⟩
    next =>
      refine (Write.gives_intern (gives_classes utf8.throws)).bind fun indices => ?_
      have isThrows : Write.Gives
          (pure [("Exceptions", u2OfNat m.throws.length ++ indices.flatMap u2)]) fun q list =>
            Forall₂ (fun name i => q.className i = name) m.throws indices →
              IsThrowsAttribute q m.throws list := by
        refine .pure fun q _ each => ⟨namedIn_singleton, le_rfl, ?_⟩
        exact (flatMap_singleton _ _).trans (inBody_of_reads (reads_classes fits.throws each 0))
      refine isThrows.bind fun throws => (last name desc code throws).mono ?_
      exact fun q bytes reads leads each => reads (leads each)
  unfold encode
  refine (Write.gives_intern (gives_utf8 _)).bind fun name =>
    (Write.gives_intern (gives_utf8 _)).bind fun desc => ?_
  cases body : m.code with
  | none =>
    rw [body] at throwing
    refine (Write.Gives.pure fun q _ => ?_).bind fun code => throwing name desc code
    exact ⟨.of_nil, Nat.zero_le _, rfl⟩
  | some c =>
    rw [body] at throwing
    refine (Write.gives_intern (c.gives_encode (fits.code c body) major)).bind fun bytes => ?_
    have isCode : Write.Gives (pure [("Code", bytes)]) fun q list =>
        Parse.code q bytes = c.reread major → IsCodeAttribute q (some (c.reread major)) list := by
      refine .pure fun q _ same => ⟨namedIn_singleton, le_rfl, ?_⟩
      exact congrArg some same
    refine isCode.bind fun code => (throwing name desc code).mono ?_
    exact fun q bytes reads leads same => reads (leads same)

/-! ## Classes -/

namespace ClassFile

/-- The class as it is read back, without its annotations. -/
def reread (c : ClassFile) : ClassFile :=
  { major := c.writtenMajor, minor := c.minor, access := c.access, name := c.name, super := c.super,
    interfaces := c.interfaces, fields := c.fields.map Field.reread,
    methods := c.methods.map fun m => m.reread c.writtenMajor, source := c.source,
    signature := c.signature }

structure IsUtf8 (c : ClassFile) : Prop where
  name : c.name.isUtf8 = true
  super : c.super.isUtf8 = true
  interfaces : ∀ name ∈ c.interfaces, name.isUtf8 = true
  fields : ∀ f ∈ c.fields, f.IsUtf8
  methods : ∀ m ∈ c.methods, m.IsUtf8
  source : c.source.isUtf8 = true
  signature : c.signature.isUtf8 = true

structure Fits (c : ClassFile) : Prop where
  interfaces : c.interfaces.length < 65536
  fields : c.fields.length < 65536
  methods : c.methods.length < 65536 ∧ ∀ m ∈ c.methods, m.Fits

end ClassFile

namespace ClassFile

theorem gives_encodeBody (utf8 : c.IsUtf8) (fits : c.Fits) :
    Write.Gives c.encodeBody fun q bytes => ∀ pc,
      Parse.Reads pc (Parse.behind c.minor c.writtenMajor q) bytes { c.reread with pool := q } := by
  have named := fun name => Write.gives_intern (gives_class name)
  have last : ∀ name super, Write.Gives (c.encodeBehind name super)
      fun q bytes => q.className super = c.super → q.className name = c.name.mended → ∀ pc,
        Parse.Reads pc (Parse.behind c.minor c.writtenMajor q) bytes { c.reread with pool := q } := by
    intro name super
    have named : ∀ name ∈ c.interfaces, Write.Gives (Write.intern (class_ name))
        fun q i => q.className i = name := by
      intro name member
      refine (named name).mono fun q i here => ?_
      rwa [mended_eq (utf8.interfaces name member)] at here
    refine (Write.Gives.mapM named).bind fun interfaces => ?_
    refine (Write.Gives.mapM fun f member => f.gives_encode (utf8.fields f member)).bind
      fun fields => ?_
    refine (Write.Gives.mapM fun m member =>
      m.gives_encode (utf8.methods m member) (fits.methods.2 m member) c.writtenMajor).bind
      fun methods => ?_
    refine (Write.gives_intern (gives_textAttribute _ _)).bind fun source =>
      (Write.gives_intern (gives_textAttribute _ _)).bind fun signature =>
        (Write.gives_intern (gives_annotationAttributes _)).bind fun annotations =>
          (gives_attributes (source ++ signature ++ annotations)).map ?_
    intro q attributes reads annotated signed sourced eachMethod eachField eachInterface isSuper
      isName pc
    rw [mended_eq utf8.name] at isName
    have known : NamedIn attributeNames _ :=
      ((sourced.same.append signed.same).append annotated.1).mono (by decide)
    have few : (source ++ signature ++ annotations).length < 65536 := by
      have first := sourced.few
      have second := signed.few
      have third := annotated.2
      rw [length_append, length_append]
      omega
    have sources : Parse.named ((source ++ signature ++ annotations).map readAttribute)
        "SourceFile" = _ := named_group (by rw [append_assoc]; rfl) namedIn_nil sourced.same
      (signed.same.append annotated.1) (by decide)
    have signatures : Parse.named ((source ++ signature ++ annotations).map readAttribute)
        "Signature" = _ := named_group (append_assoc _ _ _) sourced.same signed.same annotated.1
      (by decide)
    have back : ({
        major := c.writtenMajor, minor := c.minor, access := c.access, name := q.className name
        super := q.className super, interfaces := c.interfaces, fields := c.fields.map Field.reread
        methods := c.methods.map fun m => m.reread c.writtenMajor
        source := Parse.textOf q "SourceFile"
          ((source ++ signature ++ annotations).map readAttribute)
        signature := Parse.textOf q "Signature"
          ((source ++ signature ++ annotations).map readAttribute)
        pool := q } : ClassFile) = { c.reread with pool := q } := by
      rw [isName, isSuper, sourced.leads _ sources, signed.leads _ signatures,
        mended_eq utf8.source, mended_eq utf8.signature]
      rfl
    have shape : u2 c.access ++ u2 name ++ u2 super ++ u2OfNat c.interfaces.length ++
        interfaces.flatMap u2 ++ u2OfNat c.fields.length ++ fields.flatten ++
        u2OfNat c.methods.length ++ methods.flatten ++ attributes =
      u2 c.access ++ (u2 name ++ (u2 super ++ ((u2OfNat c.interfaces.length ++
        interfaces.flatMap u2) ++ ((u2OfNat fields.length ++ fields.flatten) ++
        ((u2OfNat methods.length ++ methods.flatten) ++ attributes))))) := by
      rw [eachField.length_eq, eachMethod.length_eq]
      simp only [append_assoc]
    rw [shape]
    refine (Scan.reads_u2 c.access).lift.bind ((Scan.reads_u2 name).lift.bind
      ((Scan.reads_u2 super).lift.bind ((reads_classes fits.interfaces eachInterface _).lift.bind ?_)))
    have fieldsBack : Forall₂ (fun piece value => ∀ pc,
        Parse.Reads pc (Parse.field q) piece value) fields (c.fields.map Field.reread) := by
      rw [forall₂_map_right_iff]
      exact eachField.flip
    have methodsBack : Forall₂ (fun piece value => ∀ pc,
        Scan.Reads pc (Parse.method q) piece value) methods
        (c.methods.map fun m => m.reread c.writtenMajor) := by
      rw [forall₂_map_right_iff]
      exact eachMethod.flip
    refine (Parse.reads_counted (eachField.length_eq ▸ fits.fields) fieldsBack).bind
      ((Scan.reads_counted _ (eachMethod.length_eq ▸ fits.methods.1) methodsBack).lift.bind
        ((reads known few _).lift.bind_nil (Parse.reads_check.nil_bind ?_)))
    rw [← back]
    exact .pure _
  unfold encodeBody
  refine (named _).bind fun name => ?_
  split
  next empty =>
    refine (Write.Gives.pure fun q first => ?_).bind fun super => last name super
    rw [className_zero first]
    exact (ext (isEmpty_iff.mp empty)).symm
  next =>
    refine ((named _).mono fun q i here => ?_).bind fun super => last name super
    rwa [mended_eq utf8.super] at here

theorem encode_of_takes {n : Nat} (takes : Write.Takes n c.encodeBody)
    (fine : c.pool.failure = none) (fits : c.pool.count + n ≤ capacity) :
    ∃ bytes p, c.encode = .ok (bytes, p) ∧ p.count ≤ c.pool.count + n := by
  obtain ⟨body, ⟨p, failure⟩, here, told, finePool, size⟩ :=
    takes { pool := c.pool } rfl fine fits
  cases told
  refine ⟨u4 magic ++ u2 c.minor ++ u2 c.writtenMajor ++ p.encoded ++ body, p, ?_, size⟩
  rw [encode_of_body here, show p.failure = none from finePool]
  rfl

theorem reads_encode (utf8 : c.IsUtf8) (fits : c.Fits) (grown : Grows {} c.pool)
    {bytes : List UInt8} {p : Pool} (written : c.encode = .ok (bytes, p)) (small : p.count ≤ 65535) :
    ∃ q : Pool, q.entries = p.entries.map Constant.reread ∧
      Reads 0 classFile bytes { c.reread with pool := q } := by
  obtain ⟨body, here, fine, rfl⟩ := encode_eq_ok written
  have grows : Grows {} p := grown.trans (c.adds_encodeBody _ _ _ here)
  obtain ⟨q, same, readsPool⟩ :=
    reads_pool (grows.regular regular_empty) (Nat.lt_succ_of_le small)
  have keeps : ∀ i c, p.Has i c → q.Has i c.reread := by
    intro i c found
    rw [Has, same, Array.getElem?_map, show p.entries[i.toNat]? = some c from found]
    rfl
  have back : p.Back q := ⟨keeps, keeps 0 .unused (grows.keeps 0 .unused rfl)⟩
  have readsBody := (gives_encodeBody utf8 fits).holds _ _ _ (grown.sound sound_empty) here rfl
    fine q back
  refine ⟨q, same, ?_⟩
  rw [classFile]
  simp only [append_assoc]
  refine (reads_u4 magic).lift.bind ?_
  rw [if_neg (not_not_intro rfl)]
  exact (reads_u2 c.minor).lift.bind ((reads_u2 c.writtenMajor).lift.bind
    ((readsPool _).bind (readsBody _)))

/-- A class that was written is read back as it was, but for its annotations, for the initial values
of fields that cannot have one, and for stack maps that are empty or of an old version. The
entries of its pool stand where they stood. -/
theorem decode_encode {c : ClassFile} (utf8 : c.IsUtf8) (fits : c.Fits)
    (grown : Pool.Grows {} c.pool) {bytes : List UInt8} {p : Pool}
    (written : c.encode = .ok (bytes, p)) (small : p.count ≤ 65535) :
    ∃ q : Pool, q.entries = p.entries.map Constant.reread ∧
      decode ⟨bytes.toArray⟩ = .ok { c.reread with pool := q } := by
  obtain ⟨q, same, reads⟩ := reads_encode utf8 fits grown written small
  have run := Scan.Reads.run_append reads []
  rw [append_nil] at run
  exact ⟨q, same, congrArg Prod.fst run⟩

def answering : ClassFile where
  major := 0
  access := 0x21
  name := "a"
  super := "java/lang/Object"
  fields := [{ access := 0x19, name := "n", desc := "I", value := some { tag := 73, bits := 42 } }]
  methods := [{
    access := 9, name := "f", desc := "()I"
    code := some { maxStack := 1, maxLocals := 0, bytecode := [0x10, 42, 0xac] } }]

theorem takes_answering : Write.Takes 11 answering.encodeBody := by
  have field : Write.Takes 4 (answering.fields.mapM Field.encode) :=
    (Field.takes_encode (f := answering.fields.head (by decide)) ⟨rfl, rfl⟩
      ⟨by decide, by decide⟩ rfl rfl (takes_intern _)).bind fun _ => .pure _
  have method : Write.Takes 3 (answering.methods.mapM fun m => m.encode answering.writtenMajor) :=
    (Method.takes_encode (m := answering.methods.head (by decide)) ⟨rfl, rfl, rfl⟩
      ⟨by decide, by decide⟩ rfl rfl rfl).bind fun _ => .pure _
  exact takes_encodeBody ⟨rfl, rfl, rfl, rfl⟩ ⟨by decide, by decide⟩ field method

theorem answering_plain : answering.IsUtf8 ∧ answering.Fits := by
  have text : ∀ t ∈ ["a", "java/lang/Object", "n", "I", "f", "()I", ""], isUtf8 t = true := by
    intro t member
    refine isUtf8_of_ascii ?_
    revert t
    decide +kernel
  refine ⟨⟨text _ (by decide), text _ (by decide), nofun, ?_, ?_, text "" (by decide),
    text "" (by decide)⟩, ⟨by decide, by decide, by decide, ?_⟩⟩
  · refine forall_mem_singleton.mpr
      ⟨text _ (by decide), text _ (by decide), ?_, text "" (by decide)⟩
    intro value same
    cases same
    exact text "" (by decide)
  · exact forall_mem_singleton.mpr
      ⟨text _ (by decide), text _ (by decide), nofun, text "" (by decide)⟩
  · refine forall_mem_singleton.mpr ⟨?_, by decide⟩
    intro c same
    cases same
    exact ⟨by decide, by decide, by decide, nofun⟩

/-- The class is written and read back. -/
theorem decode_encode_answering : ∃ bytes p, answering.IsUtf8 ∧ answering.Fits ∧
    Pool.Grows {} answering.pool ∧ answering.encode = .ok (bytes, p) ∧ p.count ≤ 65535 ∧
      ∃ q : Pool, q.entries = p.entries.map Constant.reread ∧
        decode ⟨bytes.toArray⟩ = .ok { answering.reread with pool := q } := by
  obtain ⟨utf8, fits⟩ := answering_plain
  obtain ⟨bytes, p, written, size⟩ := encode_of_takes takes_answering rfl (by decide)
  have small : p.count ≤ 65535 := le_trans size (by decide)
  exact ⟨bytes, p, utf8, fits, .refl _, written, small,
    decode_encode utf8 fits (.refl _) written small⟩

def classConstant : ClassFile where
  major := 52
  access := 0x21
  name := "a"
  fields := [{ access := 0x19, name := "n", desc := "La;", value := some { tag := 99, text := "La;" } }]

/-- The initial value of the field is not read back. -/
theorem decode_loses_classConstant : ∃ bytes p d, classConstant.IsUtf8 ∧ classConstant.Fits ∧
    Pool.Grows {} classConstant.pool ∧ classConstant.encode = .ok (bytes, p) ∧ p.count ≤ 65535 ∧
      decode ⟨bytes.toArray⟩ = .ok d ∧
      d.fields.map Field.value ≠ classConstant.fields.map Field.value := by
  have text : ∀ t ∈ ["a", "n", "La;", ""], Text.isUtf8 t = true := by
    intro t member
    refine Text.isUtf8_of_ascii ?_
    revert t
    decide +kernel
  have utf8 : classConstant.IsUtf8 := by
    refine ⟨text _ (by decide), text "" (by decide), nofun, ?_, nofun, text "" (by decide),
      text "" (by decide)⟩
    refine forall_mem_singleton.mpr
      ⟨text _ (by decide), text _ (by decide), ?_, text "" (by decide)⟩
    intro value same
    cases same
    exact text _ (by decide)
  have fits : classConstant.Fits := ⟨by decide, by decide, by decide, nofun⟩
  have field : Write.Takes 3 (classConstant.fields.mapM Field.encode) :=
    (Field.takes_encode (f := classConstant.fields.head (by decide)) ⟨rfl, rfl⟩
      ⟨by decide, by decide⟩ rfl rfl (Intern.Takes.pure 0)).bind fun _ => .pure _
  have takes := takes_encodeBody (c := classConstant) ⟨rfl, rfl, rfl, rfl⟩ ⟨by decide, by decide⟩
    field (.pure [])
  obtain ⟨bytes, p, written, size⟩ := encode_of_takes takes rfl (by decide)
  have small : p.count ≤ 65535 := le_trans size (by decide)
  obtain ⟨q, -, reads⟩ := reads_encode utf8 fits (.refl _) written small
  have run := Scan.Reads.run_append reads []
  rw [append_nil] at run
  refine ⟨bytes, p, _, utf8, fits, .refl _, written, small, congrArg Prod.fst run, ?_⟩
  change classConstant.reread.fields.map Field.value ≠ classConstant.fields.map Field.value
  decide

end ClassFile

end DexLift.Jvm
