import DexLift.Yaml.Scalar

/-!
# Tokens of a document

Tokens are read one after the other. Brackets open flow collections, in which
indentation means nothing. Everywhere else the column of a token opens and
closes block collections: a column further right than all before opens one, a
column further left closes those that lie behind it.

That a token begins a key is known only when the colon behind it is found. So
the place of every token that may be a key is kept, one for each level of
brackets, and the tokens that open the key are put in front of it later. Such a
key ends on its own line and within 1024 characters.
-/

namespace DexLift.Yaml

inductive Token where
  | streamStart
  | streamEnd
  | version (isKnown : Bool)
  | documentStart
  | documentEnd
  | blockSequenceStart
  | blockMappingStart
  | blockEnd
  | flowSequenceStart
  | flowSequenceEnd
  | flowMappingStart
  | flowMappingEnd
  | blockEntry
  | flowEntry
  | key
  | value
  | alias (name : Text)
  | anchor (name : Text)
  | tag (handle suffix : Text)
  | scalar (text : Text) (isPlain : Bool)
deriving DecidableEq, Inhabited

structure PossibleKey where
  /-- Nothing but a key may stand there. -/
  required : Bool
  /-- The number of the token. -/
  token : Nat
  index : Nat
  line : Nat
  column : Nat

/-- The state of reading tokens. -/
structure Lexer where
  cursor : Cursor
  tokens : Array Token := #[.streamStart]
  /-- The column of the innermost block collection; outside of all it is minus one. -/
  indent : Int := -1
  /-- The columns of the block collections around it, the nearest first. -/
  outer : List Int := []
  /-- Whether a key may begin here. -/
  keyAllowed : Bool := true
  /-- The possible key outside of brackets. -/
  blockKey : Option PossibleKey := none
  /-- The possible keys inside each pair of open brackets, the innermost first. -/
  flowKeys : List (Option PossibleKey) := []
  /-- The end has been reached. -/
  ended : Bool := false

namespace Lexer

/-- Whether brackets are open. -/
def inFlow (l : Lexer) : Bool := !l.flowKeys.isEmpty

def possibleKey (l : Lexer) : Option PossibleKey := l.flowKeys.headD l.blockKey

def setKey (l : Lexer) (key : Option PossibleKey) : Lexer :=
  match l.flowKeys with
  | [] => { l with blockKey := key }
  | _ :: rest => { l with flowKeys := key :: rest }

def push (l : Lexer) (token : Token) : Lexer := { l with tokens := l.tokens.push token }

/-- Adds a token that consists of the next `count` characters. -/
def take (l : Lexer) (count : Nat) (token : Token) : Lexer :=
  { l with tokens := l.tokens.push token, cursor := l.cursor.skipMany count }

/-- Gives up the possible key at the current level; one that is required cannot be given up. -/
def dropKey (l : Lexer) : Option Lexer :=
  if l.possibleKey.any (·.required) then none else some (l.setKey none)

/-- Notes that the next token may begin a key. -/
def saveKey (l : Lexer) : Option Lexer :=
  if !l.keyAllowed then some l
  else do
    let l ← l.dropKey
    let c := l.cursor
    return l.setKey (some {
      required := !l.inFlow && l.indent == c.column
      token := l.tokens.size, index := c.index, line := c.line, column := c.column })

/-- The possible key at the current level if it can still be one. -/
def validKey (l : Lexer) : Option (Option PossibleKey) :=
  match l.possibleKey with
  | none => some none
  | some key =>
    if key.line < l.cursor.line || key.index + 1024 < l.cursor.index then
      if key.required then none else some none
    else some (some key)

def unroll (l : Lexer) (column : Int) : Lexer :=
  if l.inFlow then l
  else
    let columns := l.indent :: l.outer
    let closed := (columns.takeWhile (· > column)).length
    { l with
      tokens := l.tokens ++ Array.replicate closed Token.blockEnd
      indent := (columns.drop closed).headD (-1)
      outer := (columns.drop closed).tail }

/-- Opens a block collection at a column, unless one is open there; its token gets the number
`place`. -/
def roll (l : Lexer) (column : Nat) (place : Nat) (token : Token) : Lexer :=
  if l.inFlow || l.indent ≥ column then l
  else
    { l with
      tokens := l.tokens.insertIdxIfInBounds place token
      indent := column
      outer := l.indent :: l.outer }

/-- Passes over blanks, comments and ends of lines. A tab counts as a blank inside brackets and
where no key may begin. -/
def skipGap : (fuel : Nat) → Lexer → Lexer
  | 0, l => l
  | fuel + 1, l =>
    let c := l.cursor.skipWhile fun char =>
      char == ' ' || char == '\t' && (l.inFlow || !l.keyAllowed)
    let c := if c.isAt '#' then c.skipComments c.rest.length else c
    if c.isAtAny isBreak then
      skipGap fuel { l with cursor := c.skipBreak, keyAllowed := l.keyAllowed || !l.inFlow }
    else { l with cursor := c }

/-- Ends all block collections, as marks between documents do. -/
def endBlocks (l : Lexer) : Option Lexer := do
  let l ← (l.unroll (-1)).dropKey
  return { l with keyAllowed := false }

def openFlow (l : Lexer) (token : Token) : Option Lexer := do
  let l ← l.saveKey
  return { l.take 1 token with flowKeys := none :: l.flowKeys, keyAllowed := true }

def closeFlow (l : Lexer) (token : Token) : Option Lexer := do
  let l ← l.dropKey
  return { l.take 1 token with flowKeys := l.flowKeys.tail, keyAllowed := false }

/-- Reads the comma between entries. -/
def flowEntry (l : Lexer) : Option Lexer := do
  let l ← l.dropKey
  return { l.take 1 .flowEntry with keyAllowed := true }

/-- Reads the mark of an item. Inside brackets it is left to the reader of nodes to refuse it. -/
def blockEntry (l : Lexer) : Option Lexer := do
  if !l.inFlow && !l.keyAllowed then none
  let l ← (l.roll l.cursor.column l.tokens.size .blockSequenceStart).dropKey
  return { l.take 1 .blockEntry with keyAllowed := true }

def keyMark (l : Lexer) : Option Lexer := do
  if !l.inFlow && !l.keyAllowed then none
  let l ← (l.roll l.cursor.column l.tokens.size .blockMappingStart).dropKey
  return { l.take 1 .key with keyAllowed := !l.inFlow }

/-- Reads the colon in front of a value. -/
def valueMark (l : Lexer) : Option Lexer := do
  match ← l.validKey with
  | some key =>
    let l := { l with tokens := l.tokens.insertIdxIfInBounds key.token .key }
    let l := (l.roll key.column key.token .blockMappingStart).setKey none
    return { l.take 1 .value with keyAllowed := false }
  | none =>
    let l := l.setKey none
    if !l.inFlow && !l.keyAllowed then none
    let l := l.roll l.cursor.column l.tokens.size .blockMappingStart
    return { l.take 1 .value with keyAllowed := !l.inFlow }

def quotedScalar (l : Lexer) (quote : Char) : Option Lexer := do
  let l ← l.saveKey
  let c := l.cursor.skip
  let (text, c) ← quoted quote (c.rest.length + 1) [] c
  return { l.push (.scalar (textOf text) false) with cursor := c, keyAllowed := false }

/-- Reads a plain scalar. A key may begin on the line behind it. -/
def plainScalar (l : Lexer) : Option Lexer := do
  let l ← l.saveKey
  let c := l.cursor
  let (text, broken, c) ← plain l.inFlow (l.indent + 1).toNat (c.rest.length + 1) [] {} c
  return { l.push (.scalar (textOf text) true) with cursor := c, keyAllowed := broken }

def blockScalar (l : Lexer) (folded : Bool) : Option Lexer := do
  let l ← l.dropKey
  let (text, c) ← block folded l.indent l.cursor.skip
  return { l.push (.scalar (textOf text) false) with cursor := c, keyAllowed := true }

/-- Reads the name of a node, given or referred to. -/
def name (l : Lexer) (token : Text → Token) : Option Lexer := do
  let l ← l.saveKey
  let c := l.cursor.skip
  let word := c.rest.takeWhile isWordChar
  let c := c.skipMany word.length
  let ends := c.rest.head?.all fun char =>
    isSpace char || ['?', ':', ',', ']', '\x7d', '%', '@', '\x60'].contains char
  if word.isEmpty || !ends then none
  return { l.push (token (textOf word)) with cursor := c, keyAllowed := false }

/-- Whether a character may stand in a tag. -/
def isTagChar (c : Char) : Bool :=
  isWordChar c || ";/?:@&=+$.!~*\x27()[]%,".toList.contains c

def tagParts? (rest : List Char) : Option (List Char × List Char × Nat) :=
  match rest with
  | '!' :: '<' :: more =>
    let suffix := more.takeWhile isTagChar
    match more.drop suffix.length with
    | '>' :: _ => if suffix.isEmpty then none else some ([], suffix, suffix.length + 3)
    | _ => none
  | '!' :: more =>
    let word := more.takeWhile isWordChar
    match more.drop word.length with
    | '!' :: behind =>
      let suffix := behind.takeWhile isTagChar
      if suffix.isEmpty then none
      else some ('!' :: word ++ ['!'], suffix, word.length + suffix.length + 2)
    | _ =>
      let suffix := more.takeWhile isTagChar
      if suffix.isEmpty then some ([], ['!'], 1)
      else some (['!'], suffix, suffix.length + 1)
  | _ => none

def tag (l : Lexer) : Option Lexer := do
  let l ← l.saveKey
  let (handle, suffix, count) ← tagParts? l.cursor.rest
  if !l.cursor.isSpaceAt count then none
  return { l.take count (.tag (textOf handle) (textOf suffix)) with keyAllowed := false }

/-- Reads a directive: the version of the language. Others are refused. -/
def directive (l : Lexer) : Option Lexer := do
  let l ← l.endBlocks
  let line := l.cursor.rest.takeWhile fun char => !isBreak char && char != '#'
  match ((textOf line).splitOn 32).filter fun word => !word.isEmpty with
  | [name, version] =>
    if name = "%YAML" then
      return { l.push (.version (version == "1.1")) with cursor := l.cursor.skipLine.skipBreak }
    else none
  | _ => none

def finish (l : Lexer) : Option Lexer := do
  let l ← l.endBlocks
  return { l.push .streamEnd with ended := true }

/-- Reads a token that begins with `char` and is no mark between documents. -/
def token (l : Lexer) (char : Char) : Option Lexer :=
  let beforeSpace := l.cursor.isSpaceAt 1
  match char with
  | '[' => l.openFlow .flowSequenceStart
  | '\x7b' => l.openFlow .flowMappingStart
  | ']' => l.closeFlow .flowSequenceEnd
  | '\x7d' => l.closeFlow .flowMappingEnd
  | ',' => l.flowEntry
  | '-' => if beforeSpace then l.blockEntry else l.plainScalar
  | '?' => if l.inFlow || beforeSpace then l.keyMark else l.plainScalar
  | ':' => if l.inFlow || beforeSpace then l.valueMark else l.plainScalar
  | '*' => l.name .alias
  | '&' => l.name .anchor
  | '!' => l.tag
  | '|' => if l.inFlow then none else l.blockScalar false
  | '>' => if l.inFlow then none else l.blockScalar true
  | '\x27' => l.quotedScalar char
  | '\x22' => l.quotedScalar char
  | _ => if ['\t', '#', '%', '@', '\x60'].contains char then none else l.plainScalar

/-- Reads the next token. Behind most tokens a comment may follow on the same line. -/
def next (l : Lexer) : Option Lexer :=
  let l := l.skipGap (l.cursor.rest.length + 1)
  let l := l.unroll l.cursor.column
  match l.cursor.peek? with
  | none => l.finish
  | some char =>
    if l.cursor.column == 0 && char == '%' then l.directive
    else if l.cursor.isAtDocumentMark then do
      let l ← l.endBlocks
      return l.take 3 (if char == '-' then .documentStart else .documentEnd)
    else do
      let l ← l.token char
      if l.tokens.back? == some .blockEntry then return l
      return { l with cursor := l.cursor.skipLineComment }

/-- Reads all tokens; `true` says that something cannot be read. Every token takes at least one
character, so that the number of characters is enough `fuel`. -/
def all : (fuel : Nat) → Lexer → Array Token × Bool
  | 0, l => (l.tokens, true)
  | fuel + 1, l =>
    match l.next with
    | none => (l.tokens, true)
    | some l => if l.ended then (l.tokens, false) else all fuel l

end Lexer

/-- The tokens of a document, and whether something behind them cannot be read. -/
def tokens (chars : List Char) : Array Token × Bool :=
  Lexer.all (chars.length + 2) { cursor := { rest := chars } }

end DexLift.Yaml
