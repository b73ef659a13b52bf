import DexLift.Proofs.Jvm.Giving

/-!
# Attributes and code read back

Attributes are read in the order they were given in and found by their names. What
they hold is read on its own: a text by its index, lines as a table, and code with
attributes of its own. No two attributes of one place have the same name, except
for those that are passed over.
-/

namespace DexLift.Jvm

open List Scan
open Intern (Gives)

/-! ## Attributes -/

def readAttribute (a : Attribute) : Text × List UInt8 := ((a.1 : Text), a.2)

def annotationNames : List String := ["RuntimeVisibleAnnotations", "RuntimeInvisibleAnnotations"]

def attributeNames : List String :=
  ["ConstantValue", "Code", "Exceptions", "LineNumberTable", "StackMapTable", "Signature",
    "SourceFile"] ++ annotationNames

def NamedIn (names : List String) (list : List Attribute) : Prop := ∀ a ∈ list, a.1 ∈ names

section Names

variable {names more : List String} {list before after : List Attribute} {name : String}

theorem namedIn_singleton {body : List UInt8} : NamedIn [name] [(name, body)] := by
  intro a member
  cases mem_singleton.mp member
  exact .head _

theorem NamedIn.append (first : NamedIn names before) (last : NamedIn more after) :
    NamedIn (names ++ more) (before ++ after) := by
  intro a member
  rcases mem_append.mp member with early | late
  · exact mem_append_left _ (first a early)
  · exact mem_append_right _ (last a late)

theorem namedIn_nil : NamedIn [] [] := nofun

theorem NamedIn.of_nil : NamedIn names [] := nofun

theorem NamedIn.mono (named : NamedIn names list) (fewer : ∀ n ∈ names, n ∈ more) :
    NamedIn more list :=
  fun a member => fewer _ (named a member)

end Names

theorem mended_name {name : String} (known : name ∈ attributeNames) :
    (name : Text).mended = name := by
  have ascii : ∀ n ∈ attributeNames, (n : Text).bytes.all (· < 0x80) = true := by decide
  refine Text.mended_eq (Text.isUtf8_of_ascii fun b member => ?_)
  exact of_decide_eq_true (all_eq_true.mp (ascii name known) b member)

theorem ofString_inj {first second : String} : (first : Text) = second ↔ first = second := by
  constructor
  · intro same
    have bytes := congrArg Text.bytes same
    exact String.toByteArray_inj.mp (ByteArray.ext (Array.toList_inj.mp bytes))
  · rintro rfl
    rfl

theorem inBody_of_reads {α : Type} {step : Scan α} {body : List UInt8} {value : α}
    (reads : Reads 0 step body value) : inBody body step = value := by
  have run := reads.run_append []
  rw [append_nil] at run
  rw [inBody, run]

theorem inBody_u2 (n : UInt16) : inBody (u2 n) Scan.u2 = n := inBody_of_reads (Scan.reads_u2 n)

theorem Parse.reads_attribute {q : Pool} {pc : Nat} {i : UInt16} {name : Text} {body : List UInt8}
    (named : q.text i = name) (small : body.length ≤ attributeLimit) :
    Scan.Reads pc (attribute? q) (u2 i ++ (u4OfNat body.length ++ body)) (some (name, body)) := by
  have number : (UInt32.ofNat body.length).toNat = body.length := by
    unfold attributeLimit at small
    rw [UInt32.toNat_ofNat', Nat.mod_eq_of_lt (by omega)]
  refine (Scan.reads_u2 i).bind ((Scan.reads_u4 _).bind ?_)
  rw [number, named]
  exact (Scan.reads_bytes rfl).bind_nil (Scan.reads_isFine.nil_bind (.pure _))

theorem gives_encodeAttributes {list : List Attribute} (small : ∀ a ∈ list, isOversized a = false)
    (known : NamedIn attributeNames list) (few : list.length < 65536) :
    Gives (encodeAttributes list) fun q bytes =>
      ∀ pc, Scan.Reads pc (Parse.attributes q) bytes (list.map readAttribute) := by
  have all : list.filter (!isOversized ·) = list := by
    rw [filter_eq_self]
    intro a member
    rw [small a member]
    rfl
  have each : ∀ a ∈ list, Gives (do return u2 (← Pool.utf8 a.1) ++ u4OfNat a.2.length ++ a.2)
      fun q piece => ∀ pc, Scan.Reads pc (Parse.attribute? q) piece (some (readAttribute a)) := by
    intro a member
    refine (Pool.gives_utf8 a.1).map ?_
    intro q i named pc
    rw [mended_name (known a member)] at named
    have fits := small a member
    rw [isOversized, decide_eq_false_iff_not] at fits
    rw [append_assoc]
    exact Parse.reads_attribute named (Nat.le_of_not_gt fits)
  unfold encodeAttributes
  rw [all]
  refine (Gives.mapM each).map ?_
  intro q pieces done pc
  have values : Forall₂ (fun piece value => ∀ pc, Scan.Reads pc (Parse.attribute? q) piece value)
      pieces (list.map fun a => some (readAttribute a)) := by
    rw [forall₂_map_right_iff]
    exact done.flip
  have reads := Scan.reads_counted pc (done.length_eq ▸ few) values
  rw [← done.length_eq] at reads
  rw [Parse.attributes]
  have found : (list.map fun a => some (readAttribute a)).filterMap id = list.map readAttribute := by
    rw [filterMap_map]
    exact congrFun filterMap_eq_map list
  rw [← found]
  exact reads.map fun found => found.filterMap id

theorem gives_attributes (list : List Attribute) : Write.Gives (Write.attributes list)
    fun q bytes => NamedIn attributeNames list → list.length < 65536 →
      ∀ pc, Reads pc (Parse.attributes q) bytes (list.map readAttribute) :=
  Write.gives_attributes fun small => ⟨adds_encodeAttributes list,
    fun p sound fine q back known few =>
      (gives_encodeAttributes small known few).holds p sound fine q back⟩

/-! ## Attributes by name -/

section Names

variable {names more : List String} {list before group after : List Attribute} {name : String}

theorem named_append {first second : List (Text × List UInt8)} :
    Parse.named (first ++ second) name = Parse.named first name ++ Parse.named second name := by
  rw [Parse.named, filter_append, map_append]
  rfl

theorem named_same (same : NamedIn [name] list) :
    Parse.named (list.map readAttribute) name = list.map Prod.snd := by
  have all : (list.map readAttribute).filter (fun a => a.1 == (name : Text)) =
      list.map readAttribute := by
    rw [filter_eq_self, forall_mem_map]
    intro a member
    rw [readAttribute, mem_singleton.mp (same a member), beq_self_eq_true]
  rw [Parse.named, all, map_map]
  rfl

theorem named_other (named : NamedIn names list) (other : name ∉ names) :
    Parse.named (list.map readAttribute) name = [] := by
  have none_ : (list.map readAttribute).filter (fun a => a.1 == (name : Text)) = [] := by
    rw [filter_eq_nil_iff, forall_mem_map]
    intro a member
    rw [readAttribute, beq_iff_eq, ofString_inj]
    intro same
    exact other (same ▸ named a member)
  rw [Parse.named, none_, map_nil]

theorem named_group (split : list = before ++ (group ++ after)) (first : NamedIn names before)
    (same : NamedIn [name] group) (last : NamedIn more after) (other : name ∉ names ++ more) :
    Parse.named (list.map readAttribute) name = group.map Prod.snd := by
  rw [mem_append, not_or] at other
  rw [split, map_append, map_append, named_append, named_append,
    named_other first other.1, named_same same, named_other last other.2, append_nil,
    nil_append]

end Names

structure IsTextAttribute (q : Pool) (name : String) (text : Text) (list : List Attribute) :
    Prop where
  same : NamedIn [name] list
  few : list.length ≤ 1
  leads : ∀ found, Parse.named found name = list.map Prod.snd → Parse.textOf q name found = text.mended

theorem gives_textAttribute (name : String) (text : Text) :
    Gives (textAttribute name text) fun q list => IsTextAttribute q name text list := by
  unfold textAttribute
  split
  next empty =>
    refine .pure fun q _ => ⟨.of_nil, Nat.zero_le _, fun found bodies => ?_⟩
    have nothing : text = ∅ := Text.ext (isEmpty_iff.mp empty)
    have whole : (∅ : Text).mended = ∅ := Text.mended_eq (Text.isUtf8_of_ascii nofun)
    rw [Parse.textOf, bodies, nothing, whole]
    rfl
  next =>
    refine (Pool.gives_utf8 text).map ?_
    intro q i here
    refine ⟨namedIn_singleton, le_rfl, fun found bodies => ?_⟩
    have last : (Parse.named found name).getLast? = some (u2 i) := by
      rw [bodies]
      rfl
    rw [Parse.textOf, last, Option.map_some, inBody_u2, here]
    rfl

theorem gives_annotationAttributes (annotations : List Annotation) :
    Gives (annotationAttributes annotations) fun _ list =>
      NamedIn annotationNames list ∧ list.length ≤ 2 := by
  have one : ∀ name ∈ annotationNames, ∀ some : List Annotation, Gives (do
      if some.isEmpty then return []
      let pieces ← some.mapM Annotation.encode
      return [(name, u2OfNat some.length ++ pieces.flatten)] : Intern (List Attribute))
      fun _ list => NamedIn annotationNames list ∧ list.length ≤ 1 := by
    intro name known some
    split
    · exact .pure fun _ _ => ⟨.of_nil, Nat.zero_le _⟩
    · refine (Gives.of_adds (Intern.Adds.mapM Annotation.adds_encode some)).map ?_
      intro q pieces _
      refine ⟨?_, le_rfl⟩
      intro a member
      cases mem_singleton.mp member
      exact known
  refine (one _ (.head _) _).bind fun visible => (one _ (.tail _ (.head _)) _).map ?_
  rintro q invisible ⟨named, few⟩ ⟨namedToo, fewToo⟩
  refine ⟨forall_mem_append.mpr ⟨namedToo, named⟩, ?_⟩
  rw [length_append]
  exact Nat.add_le_add fewToo few

/-! ## Code -/

/-- The code as it is read back: an empty stack map is none, and old versions have none. -/
def Code.reread (c : Code) (major : UInt16) : Code :=
  { c with
    stackMap := if major ≥ stackMapMajor then c.stackMap.filter fun body => !body.isEmpty else none }

structure Code.Fits (c : Code) : Prop where
  bytecode : c.bytecode.length ≤ attributeLimit
  exceptions : c.exceptions.length < 65536
  lines : c.lines.length < 65536
  stackMap : ∀ body, c.stackMap = some body → body.length ≤ attributeLimit

theorem lines_eq {lines : List LineNumber} (small : lines.length < 65536) :
    Parse.lines (u2OfNat lines.length ++ lines.flatMap fun l => u2 l.pc ++ u2 l.line) = lines := by
  have one : ∀ (l : LineNumber) (pc : Nat), Reads pc (do
      let pc ← Scan.u2
      return ({ pc, line := ← Scan.u2 } : LineNumber)) (u2 l.pc ++ u2 l.line) l :=
    fun l _ => (reads_u2 l.pc).bind ((reads_u2 l.line).map (LineNumber.mk l.pc))
  have reads := reads_table 0 small fun l _ => one l
  rw [map_id'] at reads
  exact inBody_of_reads reads

/-- A row of the exception table. -/
def Parse.exceptionEntry : Scan ExceptionEntry := do
  let start ← Scan.u2
  let stop ← Scan.u2
  let handler ← Scan.u2
  return { start, stop, handler, type := ← Scan.u2 }

theorem reads_exceptions {entries : List ExceptionEntry} (small : entries.length < 65536) (pc : Nat) :
    Reads pc (counted Parse.exceptionEntry) (u2OfNat entries.length ++
      entries.flatMap fun e => u2 e.start ++ u2 e.stop ++ u2 e.handler ++ u2 e.type) entries := by
  have one : ∀ (e : ExceptionEntry) (pc : Nat), Reads pc Parse.exceptionEntry
      (u2 e.start ++ u2 e.stop ++ u2 e.handler ++ u2 e.type) e := by
    intro e pc
    have last : ∀ pc, Reads pc (do
        return ({ e with type := ← Scan.u2 } : ExceptionEntry)) (u2 e.type) e :=
      fun _ => (reads_u2 e.type).map fun type => { e with type }
    rw [append_assoc, append_assoc]
    exact (reads_u2 e.start).bind ((reads_u2 e.stop).bind ((reads_u2 e.handler).bind (last _)))
  have reads := reads_table pc small fun e _ => one e
  rwa [map_id'] at reads

namespace Code

section Attributes

variable {c : Code} {major : UInt16}

theorem lineAttributes_named : NamedIn ["LineNumberTable"] c.lineAttributes := by
  unfold lineAttributes
  split
  · exact .of_nil
  · exact namedIn_singleton

theorem stackMapAttributes_named : NamedIn ["StackMapTable"] (c.stackMapAttributes major) := by
  unfold stackMapAttributes
  split
  · split
    · exact namedIn_singleton
    · exact .of_nil
  · exact .of_nil

theorem length_attributes : (c.lineAttributes ++ c.stackMapAttributes major).length ≤ 2 := by
  have lines : c.lineAttributes.length ≤ 1 := by
    unfold lineAttributes
    split
    · exact Nat.zero_le _
    · exact le_rfl
  have stackMap : (c.stackMapAttributes major).length ≤ 1 := by
    unfold stackMapAttributes
    split
    · split
      · exact le_rfl
      · exact Nat.zero_le _
    · exact Nat.zero_le _
  rw [length_append]
  exact Nat.add_le_add lines stackMap

theorem attributes_small (fits : c.Fits) :
    ∀ a ∈ c.lineAttributes ++ c.stackMapAttributes major, isOversized a = false := by
  intro a member
  rw [isOversized, decide_eq_false_iff_not, Nat.not_lt]
  rcases mem_append.mp member with line | map
  · unfold lineAttributes at line
    split at line
    · cases line
    · cases mem_singleton.mp line
      have few := fits.lines
      have rows : (c.lines.flatMap fun l => u2 l.pc ++ u2 l.line).length = c.lines.length * 4 := by
        rw [length_flatMap]
        change (c.lines.map fun _ => 4).sum = _
        rw [map_const', sum_replicate_nat]
      change (u2OfNat c.lines.length ++ _).length ≤ 4294967295
      rw [length_append, rows]
      change 2 + _ ≤ _
      omega
  · unfold stackMapAttributes at map
    split at map
    next body here =>
      split at map
      · cases mem_singleton.mp map
        exact fits.stackMap body here
      · cases map
    next => cases map

theorem lines_lineAttributes (fits : c.Fits) :
    (c.lineAttributes.map Prod.snd).flatMap Parse.lines = c.lines := by
  unfold lineAttributes
  split
  next empty => rw [isEmpty_iff.mp empty]; rfl
  next => exact (flatMap_singleton _ _).trans (lines_eq fits.lines)

/-- The stack map that is found is that of the code, unless it is empty or not written. -/
theorem stackMap_stackMapAttributes :
    ((c.stackMapAttributes major).map Prod.snd).getLast?.filter (fun body => !body.isEmpty) =
      (c.reread major).stackMap := by
  unfold stackMapAttributes reread
  cases c.stackMap with
  | none | some body =>
    dsimp only
    split <;> rfl

end Attributes

theorem gives_encode {c : Code} (fits : c.Fits) (major : UInt16) :
    Gives (c.encode major) fun q bytes => Parse.code q bytes = c.reread major := by
  have isLines : NamedIn _ c.lineAttributes := lineAttributes_named
  have isStackMap : NamedIn _ (c.stackMapAttributes major) := stackMapAttributes_named
  have known : NamedIn attributeNames _ := (isLines.append isStackMap).mono (by decide)
  have few : (c.lineAttributes ++ c.stackMapAttributes major).length < 65536 :=
    lt_of_le_of_lt length_attributes (by decide)
  refine (gives_encodeAttributes (attributes_small fits) known few).map ?_
  intro q attributes reads
  have lines : Parse.named ((c.lineAttributes ++ c.stackMapAttributes major).map readAttribute)
      "LineNumberTable" = _ := named_group rfl namedIn_nil isLines isStackMap (by decide)
  have stackMap : Parse.named ((c.lineAttributes ++ c.stackMapAttributes major).map readAttribute)
      "StackMapTable" = _ := named_group (by rw [append_nil]) isLines isStackMap namedIn_nil (by decide)
  have number : (UInt32.ofNat c.bytecode.length).toNat = c.bytecode.length := by
    have small := fits.bytecode
    unfold attributeLimit at small
    rw [UInt32.toNat_ofNat', Nat.mod_eq_of_lt (by omega)]
  have rest : ∀ pc, Reads pc (do
      let found ← Parse.attributes q
      return ({
        maxStack := c.maxStack, maxLocals := c.maxLocals, bytecode := c.bytecode
        exceptions := c.exceptions
        lines := (Parse.named found "LineNumberTable").flatMap Parse.lines
        stackMap := (Parse.named found "StackMapTable").getLast?.filter fun body => !body.isEmpty }
        : Code)) attributes (c.reread major) := by
    intro pc
    refine (reads pc).bind_nil ?_
    rw [lines, stackMap, lines_lineAttributes fits, stackMap_stackMapAttributes]
    exact .pure _
  refine inBody_of_reads ?_
  simp only [append_assoc]
  rw [← append_assoc (u2OfNat c.exceptions.length)]
  refine (reads_u2 c.maxStack).bind ((reads_u2 c.maxLocals).bind ((reads_u4 _).bind ?_))
  rw [number]
  exact (reads_bytes rfl).bind ((reads_exceptions fits.exceptions _).bind (rest _))

end Code

end DexLift.Jvm
