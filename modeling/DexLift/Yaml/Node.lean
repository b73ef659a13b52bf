import DexLift.Yaml.Token
import DexLift.Text.Quoted

/-!
# Nodes of a document

A node is a scalar, a sequence or a mapping. Nodes are built from the tokens of
the first document; what follows it is not looked at, except that two more
tokens must be readable wherever one is needed.
-/

namespace DexLift.Yaml

inductive Node where
  /-- A text, with its tag if it has one; `isPlain` tells whether it stood without quotes. -/
  | scalar (tag : Option Text) (isPlain : Bool) (text : Text)
  | sequence (items : List Node)
  | mapping (entries : List (Node × Node))
deriving Inhabited

def Node.missing : Node := .scalar none true ∅

structure Input where
  tokens : Array Token
  /-- Something behind the tokens cannot be read. -/
  broken : Bool

/-- How far the building has come, and the nodes that have names, the last first. -/
structure Progress where
  place : Nat := 0
  named : List (Text × Node) := []

def Input.peek? (input : Input) (p : Progress) : Option Token :=
  if input.broken && input.tokens.size < p.place + 3 then none
  else some (input.tokens.getD p.place .streamEnd)

def Progress.skip (p : Progress) : Progress := { p with place := p.place + 1 }

/-- What stands in front of a node. -/
structure Properties where
  tag : Option Text := none
  name : Option Text := none

def tagOf? (handle suffix : Text) : Option Text :=
  if handle.isEmpty then some suffix
  else if handle = "!" then some ("!" ++ suffix)
  else if handle = "!!" then some ("tag:yaml.org,2002:" ++ suffix)
  else none

/-- Reads the tag and the name of a node, at most one each, in any order. -/
def Input.properties? (input : Input) :
    (count : Nat) → Properties → Progress → Option (Properties × Progress)
  | 0, props, p => some (props, p)
  | count + 1, props, p => do
    match ← input.peek? p, props with
    | .anchor name, ⟨_, none⟩ => input.properties? count { props with name } p.skip
    | .tag handle suffix, ⟨none, _⟩ => do
      input.properties? count { props with tag := ← tagOf? handle suffix } p.skip
    | _, _ => some (props, p)

def Progress.note (p : Progress) (name : Option Text) (node : Node) : Progress :=
  match name with
  | none => p
  | some name => { p with named := (name, node) :: p.named }

/-- Whether the next token is one of some. -/
def Input.isAt? (input : Input) (p : Progress) (tokens : List Token) : Option Bool :=
  (input.peek? p).map tokens.contains

mutual

/-- Builds a node. Block collections are allowed if `block` says so, and items at the column of the
key in front of them if `indentless` does. -/
def Input.node? (input : Input) :
    (fuel : Nat) → (block indentless : Bool) → Progress → Option (Node × Progress)
  | 0, _, _, _ => none
  | fuel + 1, block, indentless, p => do
    let first ← input.peek? p
    if let .alias name := first then
      return (← p.named.lookup name, p.skip)
    let (props, p) ← input.properties? 2 {} p
    let (node, p) ← match ← input.peek? p, block, indentless with
      | .blockEntry, _, true => do
        let (items, p) ← input.indentlessItems? fuel p
        pure (.sequence items, p)
      | .scalar text isPlain, _, _ => pure (.scalar props.tag isPlain text, p.skip)
      | .flowSequenceStart, _, _ => do
        let (items, p) ← input.flowItems? fuel true p.skip
        pure (.sequence items, p)
      | .flowMappingStart, _, _ => do
        let (entries, p) ← input.flowEntries? fuel true p.skip
        pure (.mapping entries, p)
      | .blockSequenceStart, true, _ => do
        let (items, p) ← input.blockItems? fuel p.skip
        pure (.sequence items, p)
      | .blockMappingStart, true, _ => do
        let (entries, p) ← input.blockEntries? fuel p.skip
        pure (.mapping entries, p)
      | _, _, _ =>
        if props.tag.isSome || props.name.isSome then pure (.scalar props.tag true ∅, p) else none
    return (node, p.note props.name node)

def Input.nodeUnless? (input : Input) :
    (fuel : Nat) → (block indentless : Bool) → (stops : List Token) → Progress →
      Option (Node × Progress)
  | 0, _, _, _, _ => none
  | fuel + 1, block, indentless, stops, p => do
    if ← input.isAt? p stops then return (.missing, p)
    input.node? fuel block indentless p

def Input.blockItems? (input : Input) : (fuel : Nat) → Progress → Option (List Node × Progress)
  | 0, _ => none
  | fuel + 1, p => do
    match ← input.peek? p with
    | .blockEntry => do
      let (item, p) ← input.nodeUnless? fuel true false [.blockEntry, .blockEnd] p.skip
      let (items, p) ← input.blockItems? fuel p
      return (item :: items, p)
    | .blockEnd => return ([], p.skip)
    | _ => none

/-- Builds the items of a sequence at the column of the key in front of it. -/
def Input.indentlessItems? (input : Input) :
    (fuel : Nat) → Progress → Option (List Node × Progress)
  | 0, _ => none
  | fuel + 1, p => do
    match ← input.peek? p with
    | .blockEntry => do
      let (item, p) ←
        input.nodeUnless? fuel true false [.blockEntry, .key, .value, .blockEnd] p.skip
      let (items, p) ← input.indentlessItems? fuel p
      return (item :: items, p)
    | _ => return ([], p)

def Input.blockEntries? (input : Input) :
    (fuel : Nat) → Progress → Option (List (Node × Node) × Progress)
  | 0, _ => none
  | fuel + 1, p => do
    match ← input.peek? p with
    | .key => do
      let stops : List Token := [.key, .value, .blockEnd]
      let (key, p) ← input.nodeUnless? fuel true true stops p.skip
      let (value, p) ←
        if ← input.isAt? p [.value] then input.nodeUnless? fuel true true stops p.skip
        else pure (.missing, p)
      let (entries, p) ← input.blockEntries? fuel p
      return ((key, value) :: entries, p)
    | .blockEnd => return ([], p.skip)
    | _ => none

/-- Builds the items of a sequence in brackets, up to the closing one. An item can be a mapping with
one entry. -/
def Input.flowItems? (input : Input) :
    (fuel : Nat) → (first : Bool) → Progress → Option (List Node × Progress)
  | 0, _, _ => none
  | fuel + 1, first, p => do
    if ← input.isAt? p [.flowSequenceEnd] then return ([], p.skip)
    if !first && !(← input.isAt? p [.flowEntry]) then none
    let p := if first then p else p.skip
    match ← input.peek? p with
    | .flowSequenceEnd => return ([], p.skip)
    | .key => do
      let stops : List Token := [.flowEntry, .flowSequenceEnd]
      let (key, p) ← input.nodeUnless? fuel false false (.value :: stops) p.skip
      let (value, p) ←
        if ← input.isAt? p [.value] then input.nodeUnless? fuel false false stops p.skip
        else pure (.missing, p)
      let (items, p) ← input.flowItems? fuel false p
      return (.mapping [(key, value)] :: items, p)
    | _ => do
      let (item, p) ← input.node? fuel false false p
      let (items, p) ← input.flowItems? fuel false p
      return (item :: items, p)

/-- Builds the entries of a mapping in braces, up to the closing one. -/
def Input.flowEntries? (input : Input) :
    (fuel : Nat) → (first : Bool) → Progress → Option (List (Node × Node) × Progress)
  | 0, _, _ => none
  | fuel + 1, first, p => do
    if ← input.isAt? p [.flowMappingEnd] then return ([], p.skip)
    if !first && !(← input.isAt? p [.flowEntry]) then none
    let p := if first then p else p.skip
    match ← input.peek? p with
    | .flowMappingEnd => return ([], p.skip)
    | .key => do
      let stops : List Token := [.flowEntry, .flowMappingEnd]
      let (key, p) ← input.nodeUnless? fuel false false (.value :: stops) p.skip
      let (value, p) ←
        if ← input.isAt? p [.value] then input.nodeUnless? fuel false false stops p.skip
        else pure (.missing, p)
      let (entries, p) ← input.flowEntries? fuel false p
      return ((key, value) :: entries, p)
    | _ => do
      let (key, p) ← input.node? fuel false false p
      let (entries, p) ← input.flowEntries? fuel false p
      return ((key, .missing) :: entries, p)

end

/-- The node that a document consists of, at most `fuel` tokens deep. -/
def Input.document? (input : Input) (fuel : Nat) (p : Progress) : Option Node := do
  let (node, p) ← input.node? fuel true false p
  let _ ← input.peek? p
  return node

/-- The node behind the mark that begins a document; there may be none. -/
def Input.content? (input : Input) (fuel : Nat) (p : Progress) : Option Node := do
  match ← input.peek? p with
  | .version _ | .documentStart | .documentEnd | .streamEnd => return .missing
  | _ => input.document? fuel p

/-- The root of the first document; none when there is no document. -/
def Input.root? (input : Input) : Option (Option Node) := do
  let fuel := 4 * input.tokens.size + 8
  -- the first token stands for the beginning
  let p : Progress := { place := 1 }
  match ← input.peek? p with
  | .streamEnd => return none
  | .version isKnown => do
    if !isKnown || !(← input.isAt? p.skip [.documentStart]) then none
    input.content? fuel p.skip.skip
  | .documentStart => input.content? fuel p.skip
  | _ => input.document? fuel p

/-- The root of the first document in a text. The outer option tells whether the text can be read,
the inner one whether there is a document. -/
def parse? (data : Text) : Option (Option Node) := do
  let (tokens, broken) := tokens (← characters? data)
  ({ tokens, broken } : Input).root?

/-!
## What scalars mean

A plain scalar without a tag can be a truth value, a number or nothing at all;
everything else is text. A tag says what the scalar has to be.

Whole numbers are written in base ten, or after a mark in base sixteen, eight or
two; a leading zero means base eight where the digits allow it. Other numbers
are rounded to 53 binary digits. Underscores do not count.
-/

/-- What a scalar means. -/
inductive Value where
  | null
  | bool (b : Bool)
  | int (n : Int)
  /-- A number with a fraction or an exponent, cut off towards zero. -/
  | float (whole : Int)
  /-- A number beyond all bounds, or none at all. -/
  | unbounded
  | text (t : Text)
deriving DecidableEq

def words : List (String × Value) := [
  ("true", .bool true), ("True", .bool true), ("TRUE", .bool true),
  ("false", .bool false), ("False", .bool false), ("FALSE", .bool false),
  ("", .null), ("~", .null), ("null", .null), ("Null", .null), ("NULL", .null),
  (".nan", .unbounded), (".NaN", .unbounded), (".NAN", .unbounded),
  (".inf", .unbounded), (".Inf", .unbounded), (".INF", .unbounded),
  ("+.inf", .unbounded), ("+.Inf", .unbounded), ("+.INF", .unbounded),
  ("-.inf", .unbounded), ("-.Inf", .unbounded), ("-.INF", .unbounded)]

/-- A quotient rounded to the nearest whole number, a half to the even one. -/
def roundedQuotient (num den : Nat) : Nat :=
  let below := num / den
  let twice := 2 * (num % den)
  if twice > den || twice == den && below % 2 == 1 then below + 1 else below

/-- A fraction rounded to 53 binary digits and then cut off. -/
def wholePart (num den : Nat) : Nat :=
  let whole := num / den
  let size := if whole = 0 then 0 else whole.log2 + 1
  if size > 53 then roundedQuotient num (den <<< (size - 53)) <<< (size - 53)
  else roundedQuotient (num <<< (53 - size)) den >>> (53 - size)

/-- Digits, at least one of them if `needed`; and what follows. -/
def spanDigits (needed : Bool) (bytes : List UInt8) : Option (List UInt8 × List UInt8) :=
  let (digits, rest) := bytes.span fun b => 48 ≤ b && b ≤ 57
  if needed && digits.isEmpty then none else some (digits, rest)

/-- The sign of a number, and what follows. -/
def spanSign : List UInt8 → Bool × List UInt8
  | 45 :: rest => (true, rest)
  | 43 :: rest => (false, rest)
  | bytes => (false, bytes)

def exponent? : List UInt8 → Option Int
  | [] => some 0
  | mark :: rest => do
    if mark != 101 && mark != 69 then none
    let (negative, rest) := spanSign rest
    let (digits, []) ← spanDigits true rest | none
    let size ← Text.digits? 10 digits
    return if negative then -(size : Int) else size

/-- A decimal number with a sign, a point and an exponent, each of which may be missing. A number
that is too large for the format is none. -/
def decimal? (bytes : List UInt8) : Option Value := do
  let (negative, bytes) := spanSign bytes
  let (integral, rest) ← spanDigits false bytes
  let (fraction, rest) ← match rest with
    | 46 :: rest => spanDigits integral.isEmpty rest
    | rest => if integral.isEmpty then none else some ([], rest)
  let exponent ← exponent? rest
  let digits ← Text.digits? 10 (integral ++ fraction)
  let scale := exponent - fraction.length
  -- outside of these bounds a number vanishes or exceeds the format
  let scale := max (-(bytes.length : Int) - 400) (min scale 400)
  let whole := wholePart (digits * Nat.pow 10 scale.toNat) (Nat.pow 10 (-scale).toNat)
  if whole ≥ 1 <<< 1024 then none
  return .float (if negative then -(whole : Int) else whole)

/-- The digits behind a mark in a base. The sign stands in front of the mark if it is a minus, or
behind it. -/
def marked? (mark : Text) (base : Nat) (bytes : List UInt8) : Option Value := do
  let (negative, rest) := if bytes.head? = some 45 then (true, bytes.tail) else (false, bytes)
  if !mark.bytes.isPrefixOf rest then none
  let behind := rest.drop mark.length
  let (negative, digits) := if negative then (true, behind) else spanSign behind
  let n ← Text.number? base digits
  return .int (if negative then -(n : Int) else n)

/-- The number that a text spells, given that it begins with a digit or a sign. -/
def number? (bytes : List UInt8) : Option Value :=
  let bytes := bytes.filter (· != 95)
  (Text.signed? bytes).map .int <|> decimal? bytes <|> marked? "0b" 2 bytes <|>
    marked? "0o" 8 bytes

/-- Whether every underscore stands between two digits. -/
def underscoresFit : List UInt8 → Bool
  | a :: 95 :: b :: rest =>
    (Text.digit? 10 a).isSome && (Text.digit? 10 b).isSome && underscoresFit (b :: rest)
  | [_, 95] => false
  | _ :: rest => underscoresFit rest
  | [] => true

/-- What a text means when nothing says otherwise. -/
def resolve (t : Text) : Value :=
  match words.find? fun (word, _) => t == Text.ofString word with
  | some (_, value) => value
  | none =>
    let found := match t.bytes with
      | [] => none
      | 46 :: _ => if underscoresFit t.bytes then decimal? (t.bytes.filter (· != 95)) else none
      | b :: _ => if b == 43 || b == 45 || (48 ≤ b && b ≤ 57) then number? t.bytes else none
    found.getD (.text t)

/-- The value of a digit in base sixty-four. -/
def sextet? (b : UInt8) : Option Nat :=
  let n := b.toNat
  if 65 ≤ n ∧ n ≤ 90 then some (n - 65)
  else if 97 ≤ n ∧ n ≤ 122 then some (n - 71)
  else if 48 ≤ n ∧ n ≤ 57 then some (n + 4)
  else if n = 43 then some 62
  else if n = 47 then some 63
  else none

/-- The bytes that digits in base sixty-four spell, four digits for three bytes. -/
def base64? : List UInt8 → Option (List UInt8)
  | [] => some []
  | [a, b, 61, 61] => do
    let n := (← sextet? a) * 64 + (← sextet? b)
    return [UInt8.ofNat (n / 16)]
  | [a, b, c, 61] => do
    let n := (← sextet? a) * 4096 + (← sextet? b) * 64 + (← sextet? c)
    return [UInt8.ofNat (n / 1024), UInt8.ofNat (n / 4)]
  | a :: b :: c :: d :: rest => do
    let n := (← sextet? a) * 262144 + (← sextet? b) * 4096 + (← sextet? c) * 64 + (← sextet? d)
    return UInt8.ofNat (n / 65536) :: UInt8.ofNat (n / 256) :: UInt8.ofNat n :: (← base64? rest)
  | _ => none

/-- What a text means under a tag; none when it cannot be that. -/
def resolveTagged? (tag t : Text) : Option Value :=
  let name := if tag.startsWith "tag:yaml.org,2002:" then "!!" ++ tag.drop 18 else tag
  let found := resolve t
  if name = "!!null" then if found = .null then some found else none
  else if name = "!!bool" then
    match found with
    | .bool _ => some found
    | _ => none
  else if name = "!!int" then
    match found with
    | .int _ => some found
    | _ => none
  else if name = "!!float" then
    match found with
    | .int n => some (.float n)
    | .float _ | .unbounded => some found
    | _ => none
  else if name = "!!binary" then
    (base64? (t.bytes.filter fun b => b != 10 && b != 13)).map fun bytes => .text ⟨bytes⟩
  else some (.text t)

def valueOf? (tag : Option Text) (isPlain : Bool) (t : Text) : Option Value :=
  match tag.filter fun tag => tag != Text.ofString "!" with
  | some tag => resolveTagged? tag t
  | none => some (if isPlain then resolve t else .text t)

end DexLift.Yaml
