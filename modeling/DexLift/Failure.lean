import DexLift.Text.Basic

/-!
# How a computation ends without a value

A failure is a cause and the notes that were added on the way up, outermost
first; its message is the notes and the cause joined by colons. A failure is
reported to a caller, who may go on without the part that failed.

Two other ends cannot be handled: reading outside the data, and never arriving.
They are kept apart from failures so that statements can speak about them.
-/

namespace DexLift

/-- What went wrong, without the place where it did. -/
inductive Cause where
  | inputTooSmall | notDexOrZip | noClassesDex
  | dexMagic | dexVersion | bigEndian | endianTag | headerSize | fileTruncated
  | indexRange | sectionRange | stringData | classDefinition | codeItem | annotationsDirectory
  | endOfData | longLeb128 | mutf8 | encodedValue
  | instructionStream | branchTarget | instructionPayload
  | memberOutsideClass
  | noCode | unsupportedOpcode | strayMoveResult | registerRange | undefinedRegister
  | fallsOff | invokeRegisters | misplacedException
  | typeConflict | brokenPhi
  | unpairedNew | phiLeft | notEmittable | noSlot
  | codeTooLarge | unplacedLabel | stackUnderflow | stackMap | attributeTooLarge
  | poolOverflow | stringTooLong | classMagic | classTruncated | poolConstant | bytecode
  | sinkClosed | entryName
  /-- A cause known by its wording only. -/
  | other (text : Text)
deriving DecidableEq

def Cause.text : Cause → Text
  | inputTooSmall => "dex: input too small"
  | notDexOrZip => "dex: not a .dex or zip file"
  | noClassesDex => "dex: can not find classes.dex in zip file"
  | dexMagic => "dex: bad magic"
  | dexVersion => "dex: unsupported version"
  | bigEndian => "dex: big-endian files are not supported"
  | endianTag => "dex: bad endian tag"
  | headerSize => "dex: bad header size"
  | fileTruncated => "dex: file truncated"
  | indexRange => "dex: index out of range"
  | sectionRange => "dex: section out of range"
  | stringData => "dex: bad string data"
  | classDefinition => "dex: bad class definition"
  | codeItem => "dex: bad code item"
  | annotationsDirectory => "dex: bad annotations directory"
  | endOfData => "dex: unexpected end of data"
  | longLeb128 => "dex: leb128 value too large"
  | mutf8 => "dex: invalid MUTF-8 string data"
  | encodedValue => "dex: malformed encoded value"
  | instructionStream => "dex: malformed instruction stream"
  | branchTarget => "dex: branch target not on an instruction boundary"
  | instructionPayload => "dex: malformed instruction payload"
  | memberOutsideClass => "dexnode: member event outside a class"
  | noCode => "dex2ir: method has no code"
  | unsupportedOpcode => "dex2ir: unsupported opcode"
  | strayMoveResult => "dex2ir: move-result without invoke or filled-new-array"
  | registerRange => "dex2ir: register out of range"
  | undefinedRegister => "dex2ir: register read before definition"
  | fallsOff => "dex2ir: execution falls off the end of the code"
  | invokeRegisters => "dex2ir: invoke arguments do not match the prototype"
  | misplacedException => "dex2ir: move-exception outside a handler entry"
  | typeConflict => "transform: type conflict"
  | brokenPhi => "transform: φ operand has no matching edge"
  | unpairedNew => "ir2j: allocation without constructor call"
  | phiLeft => "ir2j: φ statement survived translation"
  | notEmittable => "ir2j: expression cannot be emitted"
  | noSlot => "ir2j: local has no slot"
  | codeTooLarge => "classfile: code exceeds 65535 bytes"
  | unplacedLabel => "classfile: jump to unplaced label"
  | stackUnderflow => "classfile: operand stack underflow"
  | stackMap => "classfile: malformed StackMapTable"
  | attributeTooLarge => "classfile: attribute too large"
  | poolOverflow => "classfile: constant pool overflow"
  | stringTooLong => "classfile: string constant too long"
  | classMagic => "classfile: bad magic"
  | classTruncated => "classfile: truncated"
  | poolConstant => "classfile: bad constant pool entry"
  | bytecode => "classfile: malformed bytecode"
  | sinkClosed => "jar: sink closed"
  | entryName => "jar: entry name escapes the output"
  | other text => text

/-- What a stage adds to a failure on its way up. -/
inductive Note where
  | detail (text : Text)
  /-- The class definition that could not be decoded, by position and descriptor. -/
  | classDef (index : Nat) (name : Text)
  | container
  | readingClass (name : Text)
  | lowering (owner method : Text)
  | emitting (owner method : Text)
  | writing (entry : Text)
deriving DecidableEq

def Note.text : Note → Text
  | detail text => text
  | classDef index name =>
    if name.isEmpty then "class #" ++ Text.ofNat index else "class " ++ name
  | container => "container"
  | readingClass name => "read " ++ name
  | lowering owner method => "translate " ++ owner ++ "." ++ method
  | emitting owner method => "emit " ++ owner ++ "." ++ method
  | writing entry => "write " ++ entry

/-- A failure that a caller is told about. -/
structure Failure where
  notes : List Note
  cause : Cause
deriving DecidableEq

/-- The notes from the outermost on, then the cause, joined by colons. -/
def Failure.message (f : Failure) : Text :=
  f.notes.foldr (fun note rest => note.text ++ ": " ++ rest) f.cause.text

/-- The same failure with one more note in front. -/
def Failure.under (f : Failure) (note : Note) : Failure := { f with notes := note :: f.notes }

/-- How a computation ends without a value. -/
inductive Stop where
  | failed (failure : Failure)
  /-- A step reached outside the data it works on. -/
  | crashed
  /-- A walk goes round for ever. -/
  | endless
deriving DecidableEq

/-- A value, or the reason why there is none. -/
abbrev Outcome := Except Stop

namespace Outcome

variable {α β : Type}

def fail {α : Type} (cause : Cause) : Outcome α := .error (.failed ⟨[], cause⟩)

def failWith {α : Type} (cause : Cause) (detail : Text) : Outcome α :=
  .error (.failed ⟨[.detail detail], cause⟩)

/-- Ends outside the data. -/
def crash {α : Type} : Outcome α := .error .crashed

/-- Adds a note to a failure; a value and the other ends stay as they are. -/
def under {α : Type} (note : Note) : Outcome α → Outcome α
  | .error (.failed failure) => .error (.failed (failure.under note))
  | outcome => outcome

/-- A value that must be present; its absence is a step outside the data. -/
def ofOption {α : Type} : Option α → Outcome α
  | some value => .ok value
  | none => .error .crashed

/-- A note does not make an outcome succeed. -/
theorem under_ok {note : Note} {outcome : Outcome α} {a : α} :
    under note outcome = .ok a ↔ outcome = .ok a := by
  unfold under
  split
  · simp
  · rfl

/-- An outcome after another succeeds when both do. -/
theorem bind_ok {first : Outcome α} {next : α → Outcome β} {b : β} :
    first >>= next = .ok b ↔ ∃ a, first = .ok a ∧ next a = .ok b := by
  cases first with
  | error stop => simp [bind, Except.bind]
  | ok a => simp [bind, Except.bind]

/-- What follows a value goes on with it. -/
theorem ok_bind (a : α) (next : α → Outcome β) :
    ((.ok a : Outcome α) >>= next) = next a := rfl

variable {each : α → Outcome β} {values : List α}

/-- Steps that all succeed give all their results. -/
theorem mapM_of_ok {result : α → β} (done : ∀ a ∈ values, each a = .ok (result a)) :
    values.mapM each = .ok (values.map result) := by
  induction values with
  | nil => rfl
  | cons a rest ih =>
    rw [List.mapM_cons, done a List.mem_cons_self,
      ih fun b member => done b (List.mem_cons_of_mem a member)]
    rfl

/-- Every result of a list of steps is that of one of them. -/
theorem mem_of_mapM {results : List β} (done : values.mapM each = .ok results) {b : β}
    (member : b ∈ results) : ∃ a ∈ values, each a = .ok b := by
  induction values generalizing results with
  | nil =>
    cases done
    cases member
  | cons a values ih =>
    rw [List.mapM_cons] at done
    obtain ⟨first, here, done⟩ := bind_ok.mp done
    obtain ⟨others, rest, done⟩ := bind_ok.mp done
    cases done
    rcases List.mem_cons.mp member with rfl | later
    · exact ⟨a, List.mem_cons_self, here⟩
    · obtain ⟨c, listed, read⟩ := ih rest later
      exact ⟨c, List.mem_cons_of_mem _ listed, read⟩

end Outcome

end DexLift
