import DexLift.Text.Utf8

/-!
# Characters of a YAML document

A document is UTF-8 without control characters; a byte order mark may stand at
its beginning. Lines end with a line feed, a carriage return, both, or one of
three separators of Unicode. A cursor stands in front of the characters still to
be read and knows its line and column.
-/

namespace DexLift.Yaml

/-- Whether a code point may stand in a document. -/
def isAllowed (code : Nat) : Bool :=
  [0x09, 0x0a, 0x0d, 0x85].contains code || (0x20 ≤ code && code ≤ 0x7e) ||
    (0xa0 ≤ code && code ≤ 0xd7ff) || (0xe000 ≤ code && code ≤ 0xfffd) ||
    (0x10000 ≤ code && code ≤ 0x10ffff)

/-- The characters of a document, when all of them may stand there. -/
def characters? (data : Text) : Option (List Char) :=
  let runes := match data.runes with
    | ⟨0xfeff, _⟩ :: rest => rest
    | runes => runes
  if runes.all fun r => !r.isBroken && isAllowed r.code then
    some (runes.map fun r => Char.ofNat r.code)
  else none

def textOf (chars : List Char) : Text := Text.ofCodes (chars.map Char.toNat)

def isBlank (c : Char) : Bool := c == ' ' || c == '\t'

/-- A character that ends a line. -/
def isBreak (c : Char) : Bool :=
  c == '\n' || c == '\r' || [0x85, 0x2028, 0x2029].contains c.toNat

/-- A blank or the end of a line. -/
def isSpace (c : Char) : Bool := isBlank c || isBreak c

/-- A letter of the Latin alphabet, a digit, an underscore or a hyphen. -/
def isWordChar (c : Char) : Bool := c.isAlphanum || c == '_' || c == '-'

/-- A place in a document. -/
structure Cursor where
  /-- The characters still to be read. -/
  rest : List Char
  index : Nat := 0
  line : Nat := 0
  column : Nat := 0
  /-- How many lines have ended since the last character that is not blank. -/
  newlines : Nat := 0

namespace Cursor

def peek? (c : Cursor) : Option Char := c.rest.head?

/-- Whether the next character is a given one. -/
def isAt (c : Cursor) (char : Char) : Bool := c.rest.head? == some char

/-- Whether the next character passes a test. -/
def isAtAny (c : Cursor) (test : Char → Bool) : Bool := c.rest.head?.any test

/-- Whether the character at a distance is a blank, the end of a line, or the end of all. -/
def isSpaceAt (c : Cursor) (distance : Nat) : Bool := (c.rest[distance]?).all isSpace

def isLineEnd (c : Cursor) : Bool := c.rest.head?.all isBreak

/-- Passes over one character. -/
def skip (c : Cursor) : Cursor :=
  match c.rest with
  | [] => c
  | char :: rest =>
    { c with
      rest, index := c.index + 1, column := c.column + 1
      newlines := if isBlank char then c.newlines else 0 }

/-- Passes over several characters. -/
def skipMany (c : Cursor) : (count : Nat) → Cursor
  | 0 => c
  | count + 1 => c.skip.skipMany count

/-- Passes over characters while they pass a test. -/
def skipWhile (c : Cursor) (test : Char → Bool) : Cursor :=
  c.skipMany (c.rest.takeWhile test).length

/-- Begins a new line behind `count` characters. -/
def nextLine (c : Cursor) (count : Nat) : Cursor :=
  { rest := c.rest.drop count, index := c.index + count, line := c.line + 1, column := 0
    newlines := c.newlines + 1 }

/-- Reads the end of a line: what it counts as, and the place behind it. -/
def readBreak (c : Cursor) : List Char × Cursor :=
  match c.rest with
  | '\r' :: '\n' :: _ => (['\n'], c.nextLine 2)
  | char :: _ =>
    if !isBreak char then ([], c)
    else if char.toNat > 0x85 then ([char], c.nextLine 1)
    else (['\n'], c.nextLine 1)
  | [] => ([], c)

/-- Passes over the end of a line. -/
def skipBreak (c : Cursor) : Cursor := c.readBreak.2

/-- Whether a mark that begins or ends a document stands here. -/
def isAtDocumentMark (c : Cursor) : Bool :=
  c.column == 0 && (['-', '-', '-'].isPrefixOf c.rest || ['.', '.', '.'].isPrefixOf c.rest) &&
    c.isSpaceAt 3

/-- Passes over the rest of a line. -/
def skipLine (c : Cursor) : Cursor := c.skipWhile fun char => !isBreak char

/-- Passes over blank lines, ends of lines and blanks. At most `fuel` steps are made. -/
def skipSpace : (fuel : Nat) → Cursor → Cursor
  | 0, c => c
  | fuel + 1, c =>
    if c.isAtAny isBlank then skipSpace fuel c.skip
    else if c.isAtAny isBreak then skipSpace fuel c.skipBreak
    else c

/-- Passes over the comment that begins here and those on the lines below it, to the end of the
last one. -/
def skipComments : (fuel : Nat) → Cursor → Cursor
  | 0, c => c
  | fuel + 1, c =>
    let stop := c.skipLine
    let next := skipSpace stop.rest.length stop
    if next.isAt '#' then skipComments fuel next else stop

/-- Passes over a comment on the line of the token that has just ended. -/
def skipLineComment (c : Cursor) : Cursor :=
  let next := c.skipWhile isBlank
  if c.newlines == 0 && next.isAt '#' then next.skipLine else c

end Cursor

/-!
## The spellings of scalars

A scalar is a text. It can stand plainly, in single quotes, in double quotes with
escapes, or as a block of indented lines. Inside the first three spellings the
end of a line is folded: it counts as a blank, and empty lines below it count as
ends of lines.
-/

/-- What lies between two words of a scalar. -/
structure Gap where
  /-- Blanks, when no line has ended. -/
  blanks : List Char := []
  /-- Whether a line has ended. -/
  broken : Bool := false
  /-- The end of the first line. -/
  first : List Char := []
  /-- The ends of the lines below. -/
  more : List Char := []

def Gap.text (g : Gap) : List Char :=
  if !g.broken then g.blanks
  else if g.first.head? == some '\n' then (if g.more.isEmpty then [' '] else g.more)
  else g.first ++ g.more

/-- Reads a gap. A tab in front of column `indent` is refused when a line has ended. At most `fuel`
steps are made. -/
def Gap.read (indent : Nat) : (fuel : Nat) → Gap → Cursor → Option (Gap × Cursor)
  | 0, g, c => some (g, c)
  | fuel + 1, g, c =>
    match c.peek? with
    | none => some (g, c)
    | some char =>
      if isBlank char then
        if g.broken then
          if char == '\t' && c.column < indent then none else Gap.read indent fuel g c.skip
        else Gap.read indent fuel { g with blanks := g.blanks ++ [char] } c.skip
      else if isBreak char then
        let (text, next) := c.readBreak
        if g.broken then Gap.read indent fuel { g with more := g.more ++ text } next
        else Gap.read indent fuel { g with blanks := [], broken := true, first := text } next
      else some (g, c)

/-- The code points that a letter behind a backslash stands for. -/
def escapes : List (Char × Nat) := [
  ('0', 0), ('a', 7), ('b', 8), ('t', 9), ('\t', 9), ('n', 10), ('v', 11), ('f', 12), ('r', 13),
  ('e', 27), (' ', 32), ('\x22', 34), ('\x27', 39), ('\\', 92), ('N', 0x85), ('_', 0xa0),
  ('L', 0x2028), ('P', 0x2029)]

/-- How many hexadecimal digits follow a letter behind a backslash. -/
def escapeDigits : List (Char × Nat) := [('x', 2), ('u', 4), ('U', 8)]

def hexDigit? (c : Char) : Option Nat :=
  if c.isDigit then some (c.toNat - 48)
  else if 'a' ≤ c && c ≤ 'f' then some (c.toNat - 87)
  else if 'A' ≤ c && c ≤ 'F' then some (c.toNat - 55)
  else none

def hexNumber? (digits : List Char) : Option Nat :=
  digits.foldlM (fun n c => (hexDigit? c).map fun d => n * 16 + d) 0

/-- The character of an escape, without its backslash, and how many characters it takes. -/
def escape? : List Char → Option (Char × Nat)
  | [] => none
  | letter :: rest =>
    match escapes.lookup letter, escapeDigits.lookup letter with
    | some code, _ => some (Char.ofNat code, 1)
    | none, none => none
    | none, some count => do
      let digits := rest.take count
      if digits.length < count then none
      let code ← hexNumber? digits
      if Text.isScalar code then some (Char.ofNat code, 1 + count) else none

/-- Reads characters in quotes up to a blank, the closing quote or an escaped end of line; `true`
says that it was the latter. `text` holds the characters so far, last first. -/
def quotedRun (quote : Char) :
    (fuel : Nat) → (text : List Char) → Cursor → Option (List Char × Bool × Cursor)
  | 0, text, c => some (text, false, c)
  | fuel + 1, text, c =>
    match c.rest with
    | [] => some (text, false, c)
    | char :: rest =>
      if isSpace char then some (text, false, c)
      else if char == quote then
        if quote == '\x27' && rest.head? == some quote then
          quotedRun quote fuel (quote :: text) c.skip.skip
        else some (text, false, c)
      else if char == '\\' && quote == '\x22' then
        if rest.head?.any isBreak then some (text, true, c.skip.skipBreak)
        else do
          let (escaped, count) ← escape? rest
          quotedRun quote fuel (escaped :: text) (c.skipMany (1 + count))
      else quotedRun quote fuel (char :: text) c.skip

def quoted (quote : Char) :
    (fuel : Nat) → (text : List Char) → Cursor → Option (List Char × Cursor)
  | 0, _, _ => none
  | fuel + 1, text, c =>
    if c.isAtDocumentMark || c.rest.isEmpty then none
    else do
      let (text, broken, c) ← quotedRun quote (c.rest.length + 1) text c
      if c.isAt quote then return (text.reverse, c.skip)
      let (gap, c) ← Gap.read 0 (c.rest.length + 1) { broken } c
      quoted quote fuel (gap.text.reverse ++ text) c

/-- Characters that end a plain scalar inside brackets. -/
def flowIndicators : List Char := [',', '?', '[', ']', '\x7b', '\x7d']

/-- The characters of a plain scalar up to a blank or to what ends it. -/
def plainRun (inFlow : Bool) : List Char → List Char
  | [] => []
  | char :: rest =>
    if isSpace char || char == ':' && rest.head?.all isSpace ||
        inFlow && flowIndicators.contains char then []
    else char :: plainRun inFlow rest

/-- Reads a plain scalar whose lines below the first begin at column `indent` or behind it. `text`
holds the characters so far, last first, and `gap` what was found behind them. Also says whether
the scalar ended with the end of a line. -/
def plain (inFlow : Bool) (indent : Nat) :
    (fuel : Nat) → (text : List Char) → Gap → Cursor → Option (List Char × Bool × Cursor)
  | 0, text, gap, c => some (text.reverse, gap.broken, c)
  | fuel + 1, text, gap, c =>
    if c.isAtDocumentMark || c.isAt '#' then some (text.reverse, gap.broken, c)
    else
      let run := plainRun inFlow c.rest
      let c := c.skipMany run.length
      let text := if run.isEmpty then text else run.reverse ++ (gap.text.reverse ++ text)
      let gap := if run.isEmpty then gap else {}
      if !c.isAtAny isSpace then some (text.reverse, gap.broken, c)
      else do
        let (gap, c) ← Gap.read indent (c.rest.length + 1) gap c
        if !inFlow && c.column < indent then some (text.reverse, gap.broken, c)
        else plain inFlow indent fuel text gap c

/-- What becomes of the ends of lines behind the last line of a block. -/
inductive Chomping where
  | strip
  | clip
  | keep
deriving DecidableEq

def chomping? (c : Cursor) : Option Chomping :=
  match c.peek? with
  | some '+' => some .keep
  | some '-' => some .strip
  | _ => none

/-- Reads the digit that gives the indentation of a block; without one it is zero. -/
def blockIndent? (c : Cursor) : Option (Nat × Cursor) :=
  match c.peek? with
  | some '0' => none
  | some digit => if digit.isDigit then some (digit.toNat - 48, c.skip) else some (0, c)
  | none => some (0, c)

/-- Reads what stands behind the mark of a block on its line. -/
def blockHeader? (c : Cursor) : Option (Chomping × Nat × Cursor) := do
  let (chomping, increment, c) ← match chomping? c with
    | some chomping => do
      let (increment, c) ← blockIndent? c.skip
      pure (chomping, increment, c)
    | none => do
      let (increment, c) ← blockIndent? c
      match chomping? c with
      | some chomping => pure (chomping, increment, c.skip)
      | none => pure (.clip, increment, c)
  let c := c.skipWhile isBlank
  let c := if c.isAt '#' then c.skipLine else c
  if c.isLineEnd then return (chomping, increment, c.skipBreak) else none

/-- Reads the indentation of the next line that is not empty, and the ends of lines in front of it.
When `indent` is zero every blank belongs to the indentation. `widest` is the last column that an
empty line reached. -/
def blockBreaks (indent : Nat) :
    (fuel : Nat) → (widest : Nat) → (breaks : List Char) → Cursor →
      Option (Nat × List Char × Cursor)
  | 0, widest, breaks, c => some (widest, breaks, c)
  | fuel + 1, widest, breaks, c =>
    let blanks := (c.rest.takeWhile (· == ' ')).length
    let c := c.skipMany (if indent = 0 then blanks else min blanks (indent - c.column))
    let widest := max widest c.column
    if (indent = 0 ∨ c.column < indent) ∧ c.isAt '\t' then none
    else if c.isAtAny isBreak then
      let (text, c) := c.readBreak
      blockBreaks indent fuel widest (breaks ++ text) c
    else some (widest, breaks, c)

/-- Reads the lines of a block. `text` holds the characters so far, last first; `leading` is the end
of the line before, `breaks` those of the empty lines behind it. -/
def blockLines (folded : Bool) (indent : Nat) :
    (fuel : Nat) → (text leading breaks : List Char) → (afterBlank : Bool) → Cursor →
      Option (List Char × List Char × List Char × Cursor)
  | 0, text, leading, breaks, _, c => some (text, leading, breaks, c)
  | fuel + 1, text, leading, breaks, afterBlank, c =>
    if c.column ≠ indent ∨ c.rest.isEmpty then some (text, leading, breaks, c)
    else do
      let blank := c.isAtAny isBlank
      let joins := folded && !afterBlank && !blank && leading.head? == some '\n'
      let front := if joins then (if breaks.isEmpty then [' '] else []) else leading
      let line := c.rest.takeWhile fun char => !isBreak char
      let text := line.reverse ++ ((front ++ breaks).reverse ++ text)
      let (leading, c) := (c.skipMany line.length).readBreak
      let (_, breaks, c) ← blockBreaks indent (c.rest.length + 1) 0 [] c
      blockLines folded indent fuel text leading breaks blank c

/-- Reads a block from behind its mark, in a collection indented by `outer`. -/
def block (folded : Bool) (outer : Int) (c : Cursor) : Option (List Char × Cursor) := do
  let (chomping, increment, c) ← blockHeader? c
  let fixed := if increment = 0 then 0 else (max outer 0).toNat + increment
  let (widest, breaks, c) ← blockBreaks fixed (c.rest.length + 1) 0 [] c
  let indent := if fixed = 0 then max (max widest (outer + 1).toNat) 1 else fixed
  let (text, leading, breaks, c) ←
    blockLines folded indent (c.rest.length + 1) [] [] breaks false c
  let tail := match chomping with
    | .strip => []
    | .clip => leading
    | .keep => leading ++ breaks
  return (text.reverse ++ tail, c)

end DexLift.Yaml
