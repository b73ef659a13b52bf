import DexLift.Jvm.Code

/-!
# Class files

A class with its members and attributes, and how it is written. Everything that
is written refers to the constant pool, which therefore is filled while the rest
is written and put in front of it at the end.
-/

namespace DexLift.Jvm

inductive ElementValue where
  /-- A number; the tag is the letter of its type. -/
  | number (tag : UInt8) (bits : UInt64)
  | string (text : Text)
  | class (desc : Text)
  | enum (type name : Text)
  /-- A nested annotation: its type, then names with values. -/
  | nested (type : Text) (elements : List (Text × ElementValue))
  | array (elements : List ElementValue)
deriving Inhabited

def stringTag : UInt8 := 115

def ElementValue.tag : ElementValue → UInt8
  | number tag _ => tag
  | string _ => stringTag
  | .class _ => 99
  | enum .. => 101
  | nested .. => 64
  | array _ => 91

/-- An annotation, kept at run time when `isVisible`. -/
structure Annotation where
  type : Text
  isVisible : Bool
  elements : List (Text × ElementValue)

/-- The initial value of a static field: the letter of its type, and a number or a text. -/
structure FieldValue where
  tag : UInt8
  bits : UInt64 := 0
  text : Text := ∅
deriving DecidableEq

structure Field where
  access : UInt16
  name : Text
  desc : Text
  value : Option FieldValue := none
  signature : Text := ∅
  annotations : List Annotation := []

/-- A method; without code it is abstract or native. -/
structure Method where
  access : UInt16
  name : Text
  desc : Text
  code : Option Code := none
  /-- Internal names of the declared exceptions. -/
  throws : List Text := []
  signature : Text := ∅
  annotations : List Annotation := []

/-- A class. Names are internal; only the root has no superclass. -/
structure ClassFile where
  major : UInt16
  minor : UInt16 := 0
  access : UInt16
  name : Text
  super : Text := ∅
  interfaces : List Text := []
  fields : List Field := []
  methods : List Method := []
  source : Text := ∅
  signature : Text := ∅
  annotations : List Annotation := []
  pool : Pool := {}

/-- The first four bytes of a class file. -/
def magic : UInt32 := 0xCAFEBABE

/-- The version that is written unless another one is asked for. -/
def defaultMajor : UInt16 := 52

/-- The first version whose verifier reads stack maps. -/
def stackMapMajor : UInt16 := 50

/-- The flag that every class except interfaces has. -/
def superFlag : UInt16 := 0x20

/-- An attribute: its name and what it holds. -/
abbrev Attribute := String × List UInt8

/-- The most bytes an attribute can hold. -/
def attributeLimit : Nat := 4294967295

/-- Whether an attribute is too large to be written with its length. -/
def isOversized (a : Attribute) : Bool := a.2.length > attributeLimit

/-- Attributes as they stand in a file. One that is too large is counted but left out. -/
def encodeAttributes (attributes : List Attribute) : Intern (List UInt8) := do
  let pieces ← (attributes.filter (!isOversized ·)).mapM fun (name, body) => do
    return u2 (← Pool.utf8 name) ++ u4OfNat body.length ++ body
  return u2OfNat attributes.length ++ pieces.flatten

def oversized? (attributes : List Attribute) : Option Failure :=
  (attributes.filter isOversized).getLast?.map fun a => ⟨[.detail a.1], .attributeTooLarge⟩

def textAttribute (name : String) (text : Text) : Intern (List Attribute) := do
  if text.isEmpty then return [] else return [(name, u2 (← Pool.utf8 text))]

namespace ElementValue

mutual

/-- A value as it stands in an attribute. -/
def encode : ElementValue → Intern (List UInt8)
  | number tag bits => do
    if tag = 70 then return tag :: u2 (← Pool.float bits.toUInt32)
    else if tag = 74 then return tag :: u2 (← Pool.long bits)
    else if tag = 68 then return tag :: u2 (← Pool.double bits)
    else if tag ∈ [66, 67, 73, 83, 90] then
      return tag :: u2 (← Pool.integer bits.toUInt32.toInt32)
    else return [tag]
  | string text => do return stringTag :: u2 (← Pool.utf8 text)
  | .class desc => do return 99 :: u2 (← Pool.utf8 desc)
  | enum type name => do
    let type ← Pool.utf8 type
    return 101 :: u2 type ++ u2 (← Pool.utf8 name)
  | nested type elements => do
    let type ← Pool.utf8 type
    let pieces ← encodeNamed elements
    return 64 :: u2 type ++ u2OfNat elements.length ++ pieces
  | array elements => do
    let pieces ← encodeAll elements
    return 91 :: u2OfNat elements.length ++ pieces

/-- Names with values as they stand in an attribute. -/
def encodeNamed : List (Text × ElementValue) → Intern (List UInt8)
  | [] => return []
  | (name, value) :: rest => do
    let name ← Pool.utf8 name
    let value ← encode value
    return u2 name ++ value ++ (← encodeNamed rest)

/-- Several values as they stand in an attribute. -/
def encodeAll : List ElementValue → Intern (List UInt8)
  | [] => return []
  | value :: rest => do
    let value ← encode value
    return value ++ (← encodeAll rest)

end

end ElementValue

/-- An annotation as it stands in an attribute. -/
def Annotation.encode (a : Annotation) : Intern (List UInt8) := do
  let type ← Pool.utf8 a.type
  let pieces ← ElementValue.encodeNamed a.elements
  return u2 type ++ u2OfNat a.elements.length ++ pieces

/-- The attributes that hold annotations: those kept at run time first. -/
def annotationAttributes (annotations : List Annotation) : Intern (List Attribute) := do
  let one (name : String) (some : List Annotation) : Intern (List Attribute) := do
    if some.isEmpty then return []
    let pieces ← some.mapM Annotation.encode
    return [(name, u2OfNat some.length ++ pieces.flatten)]
  let (visible, invisible) := annotations.partition Annotation.isVisible
  let first ← one "RuntimeVisibleAnnotations" visible
  return first ++ (← one "RuntimeInvisibleAnnotations" invisible)

/-- The index of the initial value of a field, by its descriptor; 0 when it has none that can be
written. -/
def Field.valueIndex (desc : Text) (value : FieldValue) : Outcome (Intern UInt16) :=
  match desc.first? with
  | none => Outcome.crash
  | some b =>
    let bits := value.bits
    if b ∈ [90, 66, 83, 67, 73] then .ok (Pool.integer bits.toUInt32.toInt32)
    else if b = 70 then .ok (Pool.float bits.toUInt32)
    else if b = 74 then .ok (Pool.long bits)
    else if b = 68 then .ok (Pool.double bits)
    else
      .ok (if desc = "Ljava/lang/String;" ∧ value.tag = stringTag then Pool.string value.text
        else pure 0)

structure Writing where
  pool : Pool
  failure : Option Failure := none

/-- A step that writes and may end early. -/
abbrev Write := StateT Writing Outcome

namespace Write

def intern {α : Type} (step : Intern α) : Write α := fun w =>
  let (value, pool) := step.run w.pool
  .ok (value, { w with pool })

/-- Attributes of the class or of a member. A failure does not end the step. -/
def attributes (attributes : List Attribute) : Write (List UInt8) := do
  modify fun w => { w with failure := oversized? attributes <|> w.failure }
  intern (encodeAttributes attributes)

end Write

def Field.encodeInterned (f : Field) (name desc value : UInt16) : Write (List UInt8) := do
  let constant : List Attribute := if value = 0 then [] else [("ConstantValue", u2 value)]
  let signature ← Write.intern (textAttribute "Signature" f.signature)
  let annotations ← Write.intern (annotationAttributes f.annotations)
  return u2 f.access ++ u2 name ++ u2 desc ++
    (← Write.attributes (constant ++ signature ++ annotations))

def Field.encode (f : Field) : Write (List UInt8) := do
  let name ← Write.intern (Pool.utf8 f.name)
  let desc ← Write.intern (Pool.utf8 f.desc)
  let value ← match f.value with
    | none => pure 0
    | some value => do
      let step ← liftM (Field.valueIndex f.desc value)
      Write.intern step
  f.encodeInterned name desc value

def Code.lineAttributes (c : Code) : List Attribute :=
  if c.lines.isEmpty then []
  else [("LineNumberTable",
    u2OfNat c.lines.length ++ c.lines.flatMap fun l => u2 l.pc ++ u2 l.line)]

/-- Old versions have no stack map. -/
def Code.stackMapAttributes (c : Code) (major : UInt16) : List Attribute :=
  match c.stackMap with
  | some body => if major ≥ stackMapMajor then [("StackMapTable", body)] else []
  | none => []

/-- Code as it stands in an attribute. -/
def Code.encode (c : Code) (major : UInt16) : Intern (List UInt8) := do
  let attributes ← encodeAttributes (c.lineAttributes ++ c.stackMapAttributes major)
  return u2 c.maxStack ++ u2 c.maxLocals ++ u4OfNat c.bytecode.length ++ c.bytecode ++
    u2OfNat c.exceptions.length ++
    (c.exceptions.flatMap fun e => u2 e.start ++ u2 e.stop ++ u2 e.handler ++ u2 e.type) ++
    attributes

namespace Method

variable (m : Method) (name desc : UInt16) (code : List Attribute)

/-- What is written of a method once all but its signature and its annotations is in the pool. -/
def encodeInterned (throws : List Attribute) : Write (List UInt8) := do
  let signature ← Write.intern (textAttribute "Signature" m.signature)
  let annotations ← Write.intern (annotationAttributes m.annotations)
  return u2 m.access ++ u2 name ++ u2 desc ++
    (← Write.attributes (code ++ throws ++ signature ++ annotations))

/-- What is written of a method once its name, its descriptor and its code are in the pool. -/
def encodeBehind : Write (List UInt8) := do
  let throws ←
    if m.throws.isEmpty then pure []
    else do
      let indices ← Write.intern (m.throws.mapM Pool.class_)
      pure [("Exceptions", u2OfNat m.throws.length ++ indices.flatMap u2)]
  m.encodeInterned name desc code throws

def encode (major : UInt16) : Write (List UInt8) := do
  let name ← Write.intern (Pool.utf8 m.name)
  let desc ← Write.intern (Pool.utf8 m.desc)
  let code ← match m.code with
    | none => pure []
    | some code => do pure [("Code", ← Write.intern (code.encode major))]
  m.encodeBehind name desc code

end Method

namespace ClassFile

def writtenMajor (c : ClassFile) : UInt16 := if c.major = 0 then defaultMajor else c.major

/-- What stands behind the names of a class and its superclass. -/
def encodeBehind (c : ClassFile) (name super : UInt16) : Write (List UInt8) := do
  let interfaces ← c.interfaces.mapM fun i => Write.intern (Pool.class_ i)
  let fields ← c.fields.mapM Field.encode
  let methods ← c.methods.mapM fun m => m.encode c.writtenMajor
  let source ← Write.intern (textAttribute "SourceFile" c.source)
  let signature ← Write.intern (textAttribute "Signature" c.signature)
  let annotations ← Write.intern (annotationAttributes c.annotations)
  let attributes ← Write.attributes (source ++ signature ++ annotations)
  return u2 c.access ++ u2 name ++ u2 super ++ u2OfNat c.interfaces.length ++
    interfaces.flatMap u2 ++ u2OfNat c.fields.length ++ fields.flatten ++
    u2OfNat c.methods.length ++ methods.flatten ++ attributes

/-- Everything behind the constant pool. -/
def encodeBody (c : ClassFile) : Write (List UInt8) := do
  let name ← Write.intern (Pool.class_ c.name)
  let super ← if c.super.isEmpty then pure 0 else Write.intern (Pool.class_ c.super)
  c.encodeBehind name super

def encode (c : ClassFile) : Outcome (List UInt8 × Pool) := do
  let (body, w) ← c.encodeBody.run { pool := c.pool }
  if let some failure := w.failure then throw (.failed failure)
  match w.pool.failure with
  | some failure => throw (.failed (failure.under (.detail ("class " ++ c.name))))
  | none =>
    return (u4 magic ++ u2 c.minor ++ u2 c.writtenMajor ++ w.pool.encoded ++ body, w.pool)

end ClassFile

end DexLift.Jvm
