import DexLift.Text.Utf8

/-!
# JSON documents

Documents are written with one item on a line and two blanks for each level.
Inside strings the characters that would end a string, those that mean something
in HTML, control characters and line separators are escaped; a broken byte is
written as the replacement character.
-/

namespace DexLift.Json

/-- A document. -/
inductive Value where
  | text (text : Text)
  | number (n : Nat)
  | list (items : List Value)
  | object (members : List (Text × Value))

/-- How one code point is written in a string. -/
def escapeCode (code : Nat) : Text :=
  match code with
  | 34 => "\\\""
  | 92 => "\\\\"
  | 8 => "\\b"
  | 12 => "\\f"
  | 10 => "\\n"
  | 13 => "\\r"
  | 9 => "\\t"
  | _ =>
    if code < 32 ∨ [0x3c, 0x3e, 0x26, 0x2028, 0x2029].contains code then
      "\\u" ++ Text.hex code 4
    else ⟨Text.encodeRune code⟩

/-- A string with its quotes. A broken byte reads as the replacement character. -/
def string (t : Text) : Text :=
  "\"" ++ Text.concat (t.runes.map fun r => escapeCode r.code) ++ "\""

def newLine (level : Nat) : Text := ⟨10 :: List.replicate (2 * level) 32⟩

/-- Items between brackets, each on its own line. -/
def enclose (opening closing : String) (level : Nat) : List Text → Text
  | [] => Text.ofString opening ++ closing
  | items =>
    let inner := newLine (level + 1)
    opening ++ inner ++ Text.join ("," ++ inner) items ++ newLine level ++ closing

mutual

def render (level : Nat) : Value → Text
  | .text t => string t
  | .number n => Text.ofNat n
  | .list items => enclose "[" "]" level (renderItems (level + 1) items)
  | .object members => enclose "\x7b" "\x7d" level (renderMembers (level + 1) members)

def renderItems (level : Nat) : List Value → List Text
  | [] => []
  | v :: rest => render level v :: renderItems level rest

def renderMembers (level : Nat) : List (Text × Value) → List Text
  | [] => []
  | (name, v) :: rest => (string name ++ ": " ++ render level v) :: renderMembers level rest

end

def Value.document (v : Value) : Text := render 0 v ++ "\n"

abbrev Members := List (Text × Value)

def one (name : Text) (v : Value) : Members := [(name, v)]

def textMember (name t : Text) : Members := one name (.text t)

def numberMember (name : Text) (n : Nat) : Members := one name (.number n)

def numberUnlessZero (name : Text) (n : Nat) : Members :=
  if n = 0 then [] else numberMember name n

def textUnlessEmpty (name t : Text) : Members := if t.isEmpty then [] else textMember name t

def listUnlessEmpty (name : Text) (items : List Value) : Members :=
  if items.isEmpty then [] else one name (.list items)

end DexLift.Json
