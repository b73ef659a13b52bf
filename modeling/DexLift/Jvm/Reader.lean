import DexLift.Jvm.ClassFile

/-!
# Reading class files back

Constants, members, code and the attributes that are written are read; other
attributes are passed over. An attribute that is too short for what it should
hold is read as far as it goes.
-/

namespace DexLift.Jvm

/-- Reading that may end early. -/
abbrev Parse := ExceptT Stop Scan

def inBody {α : Type} (body : List UInt8) (step : Scan α) : α :=
  (step.run { data := ⟨body.toArray⟩ }).1

namespace Parse

/-- Repeats a step at most `n` times, until something fails. -/
def upTo {α : Type} (step : Parse α) : (n : Nat) → Parse (List α)
  | 0 => return []
  | n + 1 => do
    if ← Scan.isFine then
      let a ← step
      return a :: (← upTo step n)
    else return []

/-- Repeats a step as often as the next two bytes say, until something fails. -/
def counted {α : Type} (step : Parse α) : Parse (List α) := do upTo step (← Scan.u2).toNat

/-- Ends when something failed. -/
def check : Parse Unit := do
  if let some failure := (← get).failure then throw (.failed failure)

/-- One constant, the tag of which is known; none for an unknown tag. -/
def constant? (tag : UInt8) : Scan (Option Constant) := do
  let two (make : UInt16 → UInt16 → Constant) : Scan (Option Constant) := do
    let a ← Scan.u2
    return some (make a (← Scan.u2))
  let wide : Scan UInt64 := do
    let high ← Scan.u4
    return high.toUInt64 <<< 32 ||| (← Scan.u4).toUInt64
  match tag.toNat with
  | 1 =>
    let length ← Scan.u2
    return some (.utf8 (Mutf8.decode ⟨← Scan.bytes length.toNat⟩))
  | 3 => return some (.integer (← Scan.u4))
  | 4 => return some (.float (← Scan.u4))
  | 5 => return some (.long (← wide))
  | 6 => return some (.double (← wide))
  | 7 => return some (.class (← Scan.u2))
  | 8 => return some (.string (← Scan.u2))
  | 9 => two .fieldRef
  | 10 => two .methodRef
  | 11 => two .interfaceMethodRef
  | 12 => two .nameAndType
  | 15 =>
    let kind ← Scan.u1
    return some (.methodHandle kind (← Scan.u2))
  | 16 => return some (.methodType (← Scan.u2))
  | 18 => two .invokeDynamic
  | _ => return none

/-- Reads constants until a pool has `count` entries; each adds at least one. -/
def constants (count : Nat) : (fuel : Nat) → Pool → Parse Pool
  | 0, pool => return pool
  | fuel + 1, pool => do
    if pool.count ≥ count || !(← Scan.isFine) then return pool
    let tag ← Scan.u1
    match ← constant? tag with
    | none =>
      let place := "tag " ++ Text.ofNat tag.toNat ++ " at index " ++ Text.ofNat pool.count
      throw (.failed ⟨[.detail place], .poolConstant⟩)
    | some c => constants count fuel (pool.push c)

def pool : Parse Pool := do
  let count := (← Scan.u2).toNat
  let pool ← constants count count {}
  check
  return pool

/-- One attribute; none when it cannot be read. -/
def attribute? (p : Pool) : Scan (Option (Text × List UInt8)) := do
  let name := p.text (← Scan.u2)
  let body ← Scan.bytes (← Scan.u4).toNat
  if ← Scan.isFine then return some (name, body) else return none

/-- Attributes with their names. One that cannot be read ends the list. -/
def attributes (p : Pool) : Scan (List (Text × List UInt8)) := do
  return (← Scan.counted (attribute? p)).filterMap id

def named (attributes : List (Text × List UInt8)) (name : String) : List (List UInt8) :=
  (attributes.filter fun a => a.1 == (name : Text)).map Prod.snd

/-- The text that the last attribute of a name refers to; empty when there is none. -/
def textOf (p : Pool) (name : String) (attributes : List (Text × List UInt8)) : Text :=
  ((named attributes name).getLast?.map fun body => p.text (inBody body Scan.u2)).getD ∅

/-- The initial value a field attribute holds. The descriptor must not be empty. -/
def fieldValue (p : Pool) (desc : Text) (body : List UInt8) : Outcome FieldValue := do
  let constant := p.entry (inBody body Scan.u2)
  let tag ← Outcome.ofOption desc.first?
  match constant with
  | .string text => return { tag := stringTag, text := p.text text }
  | _ => return { tag, bits := constant.parts.2.1 }

def field (p : Pool) : Parse Field := do
  let access ← Scan.u2
  let name := p.text (← Scan.u2)
  let desc := p.text (← Scan.u2)
  let found ← attributes p
  let values ← (named found "ConstantValue").mapM fun body =>
    (ExceptT.mk (pure (fieldValue p desc body)) : Parse FieldValue)
  return { access, name, desc, value := values.getLast?, signature := textOf p "Signature" found }

def lines (body : List UInt8) : List LineNumber :=
  inBody body (Scan.counted do
    let pc ← Scan.u2
    return { pc, line := ← Scan.u2 })

def code (p : Pool) (body : List UInt8) : Code :=
  inBody body do
    let maxStack ← Scan.u2
    let maxLocals ← Scan.u2
    let bytecode ← Scan.bytes (← Scan.u4).toNat
    let exceptions ← Scan.counted do
      let start ← Scan.u2
      let stop ← Scan.u2
      let handler ← Scan.u2
      return ({ start, stop, handler, type := ← Scan.u2 } : ExceptionEntry)
    let found ← attributes p
    return {
      maxStack, maxLocals, bytecode, exceptions
      lines := (named found "LineNumberTable").flatMap lines
      stackMap := (named found "StackMapTable").getLast?.filter fun body => !body.isEmpty }

def method (p : Pool) : Scan Method := do
  let access ← Scan.u2
  let name := p.text (← Scan.u2)
  let desc := p.text (← Scan.u2)
  let found ← attributes p
  return {
    access, name, desc
    code := (named found "Code").getLast?.map (code p)
    throws := (named found "Exceptions").flatMap fun body =>
      inBody body (Scan.counted do return p.className (← Scan.u2))
    signature := textOf p "Signature" found }

/-- What stands behind the pool. -/
def behind (minor major : UInt16) (q : Pool) : Parse ClassFile := do
  let access ← Scan.u2
  let name := q.className (← Scan.u2)
  let super := q.className (← Scan.u2)
  let interfaces ← Scan.counted do return q.className (← Scan.u2)
  let fields ← counted (field q)
  let methods ← Scan.counted (method q)
  let found ← attributes q
  check
  return {
    major, minor, access, name, super, interfaces, fields, methods
    source := textOf q "SourceFile" found
    signature := textOf q "Signature" found
    pool := q }

def classFile : Parse ClassFile := do
  let first ← Scan.u4
  if first ≠ magic then
    check
    throw (.failed ⟨[], .classMagic⟩)
  let minor ← Scan.u2
  let major ← Scan.u2
  behind minor major (← pool)

end Parse

def ClassFile.decode (data : ByteArray) : Outcome ClassFile :=
  (Parse.classFile.run.run { data }).1

end DexLift.Jvm
