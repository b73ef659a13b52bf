import DexLift.Descriptor
import DexLift.Failure

/-!
# Class hierarchies

A hierarchy knows the superclass of some classes and which classes are
interfaces. Merging two reference types walks up from both. Nothing keeps a
class from being its own ancestor; a walk that never leaves such a circle is
reported as endless.
-/

namespace DexLift

/-- Superclasses and interfaces by descriptor; what was said last about a class counts. -/
structure Hierarchy where
  supers : List (Text × Text) := []
  interfaces : List Text := []

namespace Hierarchy

/-- Records a class. An empty superclass adds nothing. -/
def add (h : Hierarchy) (name super : Text) (isInterface : Bool) : Hierarchy :=
  { supers := if super.isEmpty then h.supers else (name, super) :: h.supers
    interfaces := if isInterface then name :: h.interfaces else h.interfaces }

/-- The superclass of a class that is known to have one. -/
def superOf? (h : Hierarchy) (name : Text) : Option Text :=
  (h.supers.find? fun e => e.1 == name).map Prod.snd

/-- Whether a class is known as an interface. -/
def isInterface (h : Hierarchy) (name : Text) : Bool := h.interfaces.contains name

/-- Core classes below the root, each after its superclass. -/
def coreClasses : List (String × String) := [
  ("java/lang/String", "java/lang/Object"), ("java/lang/Class", "java/lang/Object"),
  ("java/lang/Number", "java/lang/Object"), ("java/lang/Boolean", "java/lang/Object"),
  ("java/lang/Character", "java/lang/Object"), ("java/lang/Integer", "java/lang/Number"),
  ("java/lang/Long", "java/lang/Number"), ("java/lang/Short", "java/lang/Number"),
  ("java/lang/Byte", "java/lang/Number"), ("java/lang/Float", "java/lang/Number"),
  ("java/lang/Double", "java/lang/Number"),
  ("java/lang/AbstractStringBuilder", "java/lang/Object"),
  ("java/lang/StringBuilder", "java/lang/AbstractStringBuilder"),
  ("java/lang/StringBuffer", "java/lang/AbstractStringBuilder"),
  ("java/lang/Throwable", "java/lang/Object"), ("java/lang/Exception", "java/lang/Throwable"),
  ("java/lang/Error", "java/lang/Throwable"),
  ("java/lang/RuntimeException", "java/lang/Exception"),
  ("java/lang/NullPointerException", "java/lang/RuntimeException"),
  ("java/lang/ArithmeticException", "java/lang/RuntimeException"),
  ("java/lang/ClassCastException", "java/lang/RuntimeException"),
  ("java/lang/IllegalArgumentException", "java/lang/RuntimeException"),
  ("java/lang/IllegalStateException", "java/lang/RuntimeException"),
  ("java/lang/UnsupportedOperationException", "java/lang/RuntimeException"),
  ("java/lang/IndexOutOfBoundsException", "java/lang/RuntimeException"),
  ("java/lang/ArrayIndexOutOfBoundsException", "java/lang/IndexOutOfBoundsException"),
  ("java/lang/StringIndexOutOfBoundsException", "java/lang/IndexOutOfBoundsException"),
  ("java/lang/NegativeArraySizeException", "java/lang/RuntimeException"),
  ("java/lang/ArrayStoreException", "java/lang/RuntimeException"),
  ("java/lang/ReflectiveOperationException", "java/lang/Exception"),
  ("java/lang/ClassNotFoundException", "java/lang/ReflectiveOperationException"),
  ("java/lang/InterruptedException", "java/lang/Exception"),
  ("java/io/IOException", "java/lang/Exception")]

def coreInterfaces : List String := [
  "java/lang/Runnable", "java/lang/Comparable", "java/lang/CharSequence", "java/lang/Cloneable",
  "java/lang/Iterable", "java/lang/AutoCloseable", "java/io/Serializable", "java/io/Closeable",
  "java/util/List", "java/util/Map", "java/util/Collection"]

def core : Hierarchy :=
  let desc (name : String) : Text := Descriptor.ofInternal name
  let h := coreClasses.foldl (fun (h : Hierarchy) (name, super) =>
    h.add (desc name) (desc super) false) {}
  coreInterfaces.foldl (fun h name => h.add (desc name) objectDesc true) h

/-- A class followed by its ancestors. A chain with more links than there are entries goes round. -/
def ancestorsFrom (h : Hierarchy) : (fuel : Nat) → Text → Outcome (List Text)
  | 0, _ => .error .endless
  | fuel + 1, name =>
    match h.superOf? name with
    | none => .ok [name]
    | some super => do return name :: (← h.ancestorsFrom fuel super)

def ancestors (h : Hierarchy) (name : Text) : Outcome (List Text) :=
  h.ancestorsFrom (h.supers.length + 1) name

/-- The first class on the way up that is among the given ones; the root when there is none. -/
def climb (h : Hierarchy) (seen : List Text) : (fuel : Nat) → Text → Outcome Text
  | 0, _ => .error .endless
  | fuel + 1, name =>
    if seen.contains name then .ok name
    else
      match h.superOf? name with
      | none => .ok objectDesc
      | some super => h.climb seen fuel super

/-- The least common superclass of two different classes that are no arrays. -/
def mergeClasses (h : Option Hierarchy) (first second : Text) : Outcome Text :=
  match h with
  | none => .ok objectDesc
  | some h =>
    if h.isInterface first || h.isInterface second then .ok objectDesc
    else do
      let seen ← h.ancestors first
      h.climb seen (h.supers.length + 1) second

/-- The least common supertype of two descriptors given as bytes. -/
def mergeBytes (h : Option Hierarchy) : List UInt8 → List UInt8 → Outcome Text
  | a :: as, b :: bs =>
    if a :: as = b :: bs then .ok ⟨a :: as⟩
    else if a = Descriptor.bracket ∧ b = Descriptor.bracket then
      if Descriptor.isReference ⟨as⟩ && Descriptor.isReference ⟨bs⟩ then do
        return "[" ++ (← mergeBytes h as bs)
      else .ok objectDesc
    else if a = Descriptor.bracket ∨ b = Descriptor.bracket then .ok objectDesc
    else mergeClasses h ⟨a :: as⟩ ⟨b :: bs⟩
  | as, bs =>
    if as = bs then .ok ⟨as⟩
    else if Descriptor.isArray ⟨as⟩ || Descriptor.isArray ⟨bs⟩ then .ok objectDesc
    else mergeClasses h ⟨as⟩ ⟨bs⟩

/-- The least common supertype of two reference descriptors. Interfaces, unknown classes and arrays
of different shape merge to the root; without a hierarchy all classes do. -/
def merge (h : Option Hierarchy) (first second : Text) : Outcome Text :=
  mergeBytes h first.bytes second.bytes

/-- Whether a value of one descriptor can be used where another is expected. -/
def isAssignable (h : Option Hierarchy) (source target : Text) : Outcome Bool := do
  if source = target ∨ target = objectDesc then return true
  if h.any (·.isInterface target) then return true
  return (← merge h source target) = target

end Hierarchy

end DexLift
