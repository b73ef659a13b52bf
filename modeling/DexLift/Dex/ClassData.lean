import DexLift.Dex.Instruction
import DexLift.Dex.File

/-!
# Reading constant values and annotations

A value begins with a byte that holds its kind and, in the upper three bits, a
small argument, mostly the number of bytes that follow less one. Arrays and
annotations nest to a depth of at most 32.
-/

namespace DexLift.Dex

open Read

/-- Fills the bits above `width` bytes with copies of the sign bit. -/
def extendSign (width raw : Nat) : UInt64 :=
  (Int64.ofInt (Int.bmod raw (1 <<< (8 * width)))).toUInt64

/-- A floating-point value of `width` bytes from its leading ones; the rest are zero. -/
def floatBits (width : Nat) (raw : List UInt8) : UInt64 :=
  UInt64.ofNat (littleEndian raw <<< (8 * (width - raw.length)))

/-- The values of an array: their number, then each of them. -/
def readArray (item : Read Value) : Read (List Value) := do
  let count ← uleb128
  if count.toNat > (← remaining) then fail .endOfData
  else times item count.toNat

def File.readAnnotationBody (f : File) (item : Read Value) : Read (Text × List (Text × Value)) := do
  let type ← lift (f.type (← uleb128))
  let count ← uleb128
  if count.toNat > (← remaining) then fail .endOfData
  else
    let elements ← times (do
      let name ← lift (f.string (← uleb128))
      let value ← item
      return (name, value)) count.toNat
    return (type, elements)

def readNumber (kind : NumberKind) (width : Nat) : Read Value := do
  let raw ← bytes width
  match kind with
  | .char => return .number .char (UInt64.ofNat (littleEndian raw))
  | .float | .double =>
    let full := if kind = .double then 8 else 4
    if width > full then
      failWith .encodedValue ("float value of " ++ Text.ofNat width ++ " bytes")
    else return .number kind (floatBits full raw)
  | .methodType | .methodHandle =>
    return .number kind (UInt64.ofNat (littleEndian raw % 0x100000000))
  | _ => return .number kind (extendSign width (littleEndian raw))

/-- The value of a kind whose bytes are an index into a table. -/
def readIndexed (width : Nat) (find : UInt32 → Outcome Value) : Read Value := do
  let raw ← bytes width
  lift (find (UInt32.ofNat (littleEndian raw)))

/-- A value in which at most `levels` more values may be nested, itself included. -/
def File.readValue (f : File) : (levels : Nat) → Read Value
  | 0 => failWith .encodedValue "nesting too deep"
  | levels + 1 => do
    let head ← byte
    let arg := (head >>> 5).toNat
    let width := arg + 1
    match (head &&& 0x1f).toNat with
    | 0x00 => readNumber .byte width
    | 0x02 => readNumber .short width
    | 0x03 => readNumber .char width
    | 0x04 => readNumber .int width
    | 0x06 => readNumber .long width
    | 0x10 => readNumber .float width
    | 0x11 => readNumber .double width
    | 0x15 => readNumber .methodType width
    | 0x16 => readNumber .methodHandle width
    | 0x17 => readIndexed width fun i => return .string (← f.string i)
    | 0x18 => readIndexed width fun i => return .type (← f.type i)
    | 0x19 => readIndexed width fun i => return .field (← f.field i)
    | 0x1a => readIndexed width fun i => return .method (← f.method i)
    | 0x1b => readIndexed width fun i => return .enum (← f.field i)
    | 0x1c => return .array (← readArray (f.readValue levels))
    | 0x1d =>
      let (type, elements) ← f.readAnnotationBody (f.readValue levels)
      return .nested type elements
    | 0x1e => return .null
    | 0x1f => return .number .boolean (UInt64.ofNat arg)
    | _ =>
      let place ← position
      failWith .encodedValue
        ("tag 0x" ++ Text.hex head.toNat 2 ++ " at 0x" ++ Text.hex (place - 1) 1)

def File.readOuterValue (f : File) : Read Value := f.readValue 33

def File.readAnnotation (f : File) (offset : UInt32) : Outcome Annotation :=
  f.readAt offset.toNat do
    let visibility ← byte
    let (type, elements) ← f.readAnnotationBody f.readOuterValue
    return { visibility := ⟨visibility⟩, type, elements }

/-- The annotations of the set at an offset; offset zero is the empty set. -/
def File.readAnnotationSet (f : File) (offset : UInt32) : Outcome (List Annotation) :=
  if offset = 0 then .ok []
  else f.readAt offset.toNat do
    let count ← u32
    if count.toNat > (← remaining) / 4 then fail .endOfData
    else times (do lift (f.readAnnotation (← u32))) count.toNat

/-!
## Classes and their members

A class definition names the class and points at its annotations, its static
initial values and its members. Members are listed by differences of indices;
methods point at code items, which hold instructions, tries with their handlers
and debug information.
-/

/-- A class without its members. -/
structure ClassDef where
  index : Nat
  name : Text
  access : Access
  /-- Empty for the root class. -/
  super : Text := ∅
  interfaces : List Text := []
  source : Text := ∅
  annotations : List Annotation := []

structure Field where
  ref : FieldRef
  access : Access
  annotations : List Annotation
  /-- Initial value of a static field, when one is given. -/
  value : Option Value

/-- One catch clause; the empty type catches everything. -/
structure Handler where
  type : Text
  addr : UInt32

/-- A range of code and the clauses that catch what it throws. The end is exclusive. -/
structure Try where
  start : UInt32
  stop : UInt32
  handlers : List Handler

/-- A register that holds a named variable over a range of code. -/
structure LocalVar where
  reg : UInt16
  name : Text
  type : Text
  signature : Text
  start : UInt32
  stop : UInt32

/-- Line numbers and variable names. -/
structure DebugInfo where
  params : List Text
  /-- Addresses with the source lines that begin there. -/
  lines : List (UInt32 × UInt32)
  locals : List LocalVar

/-- The body of a method. -/
structure Code where
  registers : UInt16
  ins : UInt16
  outs : UInt16
  instructions : List Instruction
  tries : List Try
  debug : Option DebugInfo

/-- A method of a class. The code is absent for abstract and native methods and where the reader
leaves bodies out. -/
structure Method where
  ref : MethodRef
  access : Access
  annotations : List Annotation
  params : List (List Annotation)
  code : Option Code

structure ClassOffsets where
  annotations : UInt32
  members : UInt32
  values : UInt32

/-- The annotations of a class and of its members, by table index. -/
structure AnnotationsDirectory where
  onClass : List Annotation := []
  fields : List (UInt32 × List Annotation) := []
  methods : List (UInt32 × List Annotation) := []
  params : List (UInt32 × List (List Annotation)) := []

/-- The entry of an index; of several, the last counts. -/
def lastEntry {α : Type} (entries : List (UInt32 × List α)) (index : UInt32) : List α :=
  ((entries.reverse.find? fun e => e.1 == index).map Prod.snd).getD []

/-- The index that stands for an absent entry. -/
def noIndex : UInt32 := 0xffffffff

namespace File

def inClassDef {α : Type} (describe : Text → Text) : Outcome α → Outcome α
  | .error (.failed failure) => Outcome.failWith .classDefinition (describe failure.message)
  | outcome => outcome

/-- The class definition at a position; the name comes first because it is known even when the rest
is not. -/
def classDef (f : File) (index : Nat) : Text × Outcome (ClassDef × ClassOffsets) :=
  let words :=
    f.readAt (f.header.classes.offset.toNat + index * 32) (times (u32.orElse 0) 8)
  if index ≥ f.classCount then
    (∅, Outcome.failWith .indexRange ("class_def " ++ Text.ofNat index))
  else
    match words with
    | .ok [classIndex, access, superIndex, interfaces, source, annotations, members, values] =>
      match inClassDef id (f.type classIndex) with
      | .error stop => (∅, .error stop)
      | .ok name => (name, do
        let super ←
          if superIndex = noIndex then pure ∅ else inClassDef id (f.type superIndex)
        let interfaces ← inClassDef ("interfaces: " ++ ·) (f.typeList interfaces)
        let source ← if source = noIndex then pure ∅ else inClassDef id (f.string source)
        return ({ index, name, access := ⟨access⟩, super, interfaces, source },
          { annotations, members, values }))
    | .ok _ => (∅, Outcome.crash)
    | .error stop => (∅, .error stop)

/-- The class definition at a position that may be negative. -/
def definition (f : File) (index : Int) : Outcome ClassDef :=
  if index < 0 then Outcome.failWith .indexRange ("class_def " ++ Text.ofInt index)
  else (f.classDef index.toNat).2.map Prod.fst

def readDirectoryList {α : Type} (count : UInt32) (entry : UInt32 → Outcome (List α)) :
    Read (List (UInt32 × List α)) :=
  times (do
    let index ← u32.orElse 0
    let offset ← u32.orElse 0
    return (index, ← lift (entry offset))) count.toNat

def readParamSets (f : File) (offset : UInt32) : Outcome (List (List Annotation)) :=
  f.readAt offset.toNat do
    let count ← u32
    if count.toNat > (← remaining) / 4 then
      failWith .annotationsDirectory ("parameter list at 0x" ++ Text.hex offset.toNat 1)
    else times (do lift (f.readAnnotationSet (← u32.orElse 0))) count.toNat

/-- What a directory begins with: the annotations of the class, and three counts. -/
def readDirectoryHead : Read (UInt32 × UInt32 × UInt32 × UInt32) := do
  let classOffset ← u32.recast .annotationsDirectory id
  let fields ← u32.orElse 0
  let methods ← u32.orElse 0
  let params ← u32.recast .annotationsDirectory id
  return (classOffset, fields, methods, params)

/-- The annotations directory at an offset; offset zero is the empty one. -/
def annotationsDirectory (f : File) (offset : UInt32) : Outcome AnnotationsDirectory :=
  if offset = 0 then .ok {}
  else f.readAt offset.toNat do
    let (classOffset, fields, methods, params) ← readDirectoryHead
    if (fields.toNat + methods.toNat + params.toNat) * 8 > (← remaining) then
      failWith .annotationsDirectory ("at 0x" ++ Text.hex offset.toNat 1)
    else
      let onClass ← lift (f.readAnnotationSet classOffset)
      let fields ← readDirectoryList fields f.readAnnotationSet
      let methods ← readDirectoryList methods f.readAnnotationSet
      let params ← readDirectoryList params f.readParamSets
      return { onClass, fields, methods, params }

/-- The typed clauses of a handler list, then the one that catches everything when the size is zero
or negative. -/
def readHandlers (f : File) : Read (List Handler) := do
  let size ← sleb128.recast .codeItem fun _ => "catch handler"
  let count := if size < 0 then -size else size
  let typed ← times (do
    let type ← uleb128
    let addr ← uleb128
    return { type := ← lift (f.type type), addr : Handler }) count.toInt.toNat
  if size ≤ 0 then
    let addr ← uleb128
    return typed ++ [{ type := ∅, addr }]
  else return typed

def readTryItem : Read (UInt32 × UInt16 × UInt16) := do
  let start ← u32.orElse 0
  let length ← u16.orElse 0
  let handlers ← u16.recast .codeItem fun _ => "try items"
  return (start, length, handlers)

def readTries (f : File) (count : Nat) : Read (List Try) := do
  let ranges ← times readTryItem count
  let listStart ← position
  ranges.mapM fun (start, length, handlers) => do
    let handlers ← fromOffset (listStart + handlers.toNat) f.readHandlers
    return { start, stop := start + length.toUInt32, handlers }

end File

structure CodeHead where
  registers : UInt16
  ins : UInt16
  outs : UInt16
  tryCount : UInt16
  debugOffset : UInt32
  size : UInt32

structure DebugState where
  addr : UInt32 := 0
  line : UInt32
  lines : Array (UInt32 × UInt32) := #[]
  locals : Array LocalVar := #[]
  /-- Registers whose variable is open, with its place among the locals. -/
  opened : List (UInt16 × Nat) := []
  /-- The variable each register held when it was last closed. -/
  closed : List (UInt16 × LocalVar) := []

namespace DebugState

/-- Ends the variable of a register, if one is open, at the current address. -/
def close (s : DebugState) (reg : UInt16) : DebugState :=
  match s.opened.lookup reg with
  | none => s
  | some place =>
    match s.locals[place]? with
    | none => s
    | some var =>
      let var := { var with stop := s.addr }
      { s with
        locals := s.locals.set! place var
        opened := s.opened.filter fun entry => entry.1 != reg
        closed := (reg, var) :: s.closed }

/-- Begins a variable in its register. -/
def start (s : DebugState) (var : LocalVar) : DebugState :=
  { s with opened := (var.reg, s.locals.size) :: s.opened, locals := s.locals.push var }

/-- The result when the sequence ends: every open variable ends too. -/
def finish (s : DebugState) (params : List Text) : DebugInfo :=
  let ended := s.opened.foldl (fun s entry => s.close entry.1) s
  { params, lines := ended.lines.toList, locals := ended.locals.toList }

/-- A one-byte operation that moves line and address at once and notes the pair. -/
def special (s : DebugState) (op : UInt8) : DebugState :=
  let step := (op - 0x0a).toUInt32
  let line := s.line - 4 + step % 15
  let addr := s.addr + step / 15
  { s with line, addr, lines := s.lines.push (addr, line) }

end DebugState

namespace File

def optString (f : File) (index : Int) : Outcome Text :=
  if index < 0 then .ok ∅ else f.string (UInt32.ofNat index.toNat)

def optType (f : File) (index : Int) : Outcome Text :=
  if index < 0 then .ok ∅ else f.type (UInt32.ofNat index.toNat)

/-- The variable that an operation begins; the longer form also has a signature. -/
def readLocal (f : File) (addr codeSize : UInt32) (extended : Bool) : Read LocalVar := do
  let reg ← uleb128
  let name ← uleb128p1.orElse (-1)
  let type ← uleb128p1
  let name ← lift (f.optString name)
  let type ← lift (f.optType type)
  let signature ← if extended then lift (f.optString (← uleb128p1)) else pure ∅
  return { reg := reg.toUInt16, name, type, signature, start := addr, stop := codeSize }

/-- Runs at most `left` operations of the debug-information machine. -/
def runDebug (f : File) (offset codeSize : UInt32) (params : List Text) :
    (left : Nat) → DebugState → Read DebugInfo
  | 0, _ =>
    fail (.other ("dex: debug info at 0x" ++ Text.hex offset.toNat 1 ++ " does not terminate"))
  | left + 1, s => do
    let op ← byte
    match op.toNat with
    | 0x00 => return s.finish params
    | 0x01 =>
      let step ← uleb128
      f.runDebug offset codeSize params left { s with addr := s.addr + step }
    | 0x02 =>
      let step ← sleb128
      f.runDebug offset codeSize params left { s with line := s.line + step.toUInt32 }
    | 0x03 =>
      let var ← f.readLocal s.addr codeSize false
      f.runDebug offset codeSize params left ((s.close var.reg).start var)
    | 0x04 =>
      let var ← f.readLocal s.addr codeSize true
      f.runDebug offset codeSize params left ((s.close var.reg).start var)
    | 0x05 =>
      let reg ← uleb128
      f.runDebug offset codeSize params left (s.close reg.toUInt16)
    | 0x06 =>
      let reg := (← uleb128).toUInt16
      match s.closed.lookup reg with
      | some var =>
        f.runDebug offset codeSize params left
          ((s.close reg).start { var with start := s.addr, stop := codeSize })
      | none => f.runDebug offset codeSize params left s
    | 0x07 => f.runDebug offset codeSize params left s
    | 0x08 => f.runDebug offset codeSize params left s
    | 0x09 =>
      let _ ← uleb128p1
      f.runDebug offset codeSize params left s
    | _ => f.runDebug offset codeSize params left (s.special op)

def readDebugInfo (f : File) (offset codeSize : UInt32) : Outcome DebugInfo :=
  f.readAt offset.toNat do
    let line ← uleb128
    let count ← uleb128
    if count.toNat > (← remaining) then fail .endOfData
    else
      let params ← times (do lift (f.optString (← uleb128p1))) count.toNat
      f.runDebug offset codeSize params 0x100000 { line }

/-- The numbers that a code item begins with. -/
def readCodeHead (place : Text) : Read CodeHead := do
  let registers ← u16.orElse 0
  let ins ← u16.orElse 0
  let outs ← u16.orElse 0
  let tryCount ← u16.orElse 0
  let debugOffset ← u32.orElse 0
  let size ← u32.recast .codeItem fun _ => place
  return { registers, ins, outs, tryCount, debugOffset, size }

def readCode (f : File) (offset : UInt32) : Outcome Code :=
  f.readAt offset.toNat do
    let place := "at 0x" ++ Text.hex offset.toNat 1
    let { registers, ins, outs, tryCount, debugOffset, size } ← readCodeHead place
    if size.toNat > (← remaining) / 2 then
      failWith .codeItem ("insns_size " ++ Text.ofNat size.toNat ++ " " ++ place)
    else if ins > registers then
      failWith .codeItem
        ("ins " ++ Text.ofNat ins.toNat ++ " > registers " ++ Text.ofNat registers.toNat)
    else
      let units ← times (u16.orElse 0) size.toNat
      let instructions ← lift (decodeInstructions units.toArray)
      let tries ←
        if tryCount > 0 && !f.options.skipException then do
          if size % 2 = 1 then (skip 2).orElse ()
          f.readTries tryCount.toNat
        else pure []
      let debug ←
        if debugOffset ≠ 0 && !f.options.skipDebug then
          pure (some (← lift (f.readDebugInfo debugOffset size)))
        else pure none
      return { registers, ins, outs, instructions, tries, debug }

/-- Whether the body of a method is wanted. -/
def wantsCode (f : File) (name : Text) : Bool :=
  !f.options.skipCode || (name == "<clinit>" && f.options.keepClinit)

/-- Fields of one list; the first of them have the given initial values. -/
def readFields (f : File) (directory : AnnotationsDirectory) :
    (count : Nat) → (index : UInt32) → (values : List Value) → Read (List Field)
  | 0, _, _ => pure []
  | count + 1, index, values => do
    let step ← uleb128
    let access ← uleb128
    let index := index + step
    let ref ← lift (f.field index)
    let head : Field :=
      { ref, access := ⟨access⟩, annotations := lastEntry directory.fields index
        value := values.head? }
    let rest ← f.readFields directory count index values.tail
    return head :: rest

def readMethods (f : File) (directory : AnnotationsDirectory) :
    (count : Nat) → (index : UInt32) → Read (List Method)
  | 0, _ => pure []
  | count + 1, index => do
    let step ← uleb128
    let access ← uleb128
    let codeOffset ← uleb128
    let index := index + step
    let ref ← lift (f.method index)
    let code ←
      if codeOffset ≠ 0 && f.wantsCode ref.name then
        let note := "method " ++ ref.name ++ ref.desc
        pure (some (← (lift (f.readCode codeOffset)).under note))
      else pure none
    let head : Method :=
      { ref, access := ⟨access⟩, annotations := lastEntry directory.methods index
        params := lastEntry directory.params index, code }
    let rest ← f.readMethods directory count index
    return head :: rest

/-- The members of a class: static and instance fields, then direct and virtual methods. -/
def readMembers (f : File) (directory : AnnotationsDirectory) (values : List Value) :
    Read (List Field × List Method) := do
  let header := uleb128.under "class_data header"
  let staticCount ← header
  let instanceCount ← header
  let directCount ← header
  let virtualCount ← header
  let statics ← f.readFields directory staticCount.toNat 0 values
  let instances ← f.readFields directory instanceCount.toNat 0 []
  let direct ← f.readMethods directory directCount.toNat 0
  let virtual ← f.readMethods directory virtualCount.toNat 0
  return (statics ++ instances, direct ++ virtual)

/-- The class at a position with its members; its name is told even when reading fails. -/
def readClass (f : File) (index : Nat) : Text × Outcome (ClassDef × List Field × List Method) :=
  let (name, definition) := f.classDef index
  (name, do
    let (bare, offsets) ← definition
    let directory ← f.annotationsDirectory offsets.annotations
    let values ←
      if offsets.values = 0 then pure []
      else f.readAt offsets.values.toNat ((readArray f.readOuterValue).under "static values")
    let definition := { bare with annotations := directory.onClass }
    let (fields, methods) ←
      if offsets.members = 0 then pure ([], [])
      else f.readAt offsets.members.toNat (f.readMembers directory values)
    return (definition, fields, methods))

end File

end DexLift.Dex
