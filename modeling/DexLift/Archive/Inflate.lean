import DexLift.Text.Basic

/-!
# Compressed data

A compressed stream is a sequence of blocks: stored bytes, or symbols in a fixed
or in a transmitted prefix code. A symbol is a byte, the end of the block, or a
piece of what was put out before. Bytes are fetched only when the bits of a
symbol ask for them. What was put out before a fault counts.
-/

namespace DexLift.Archive

/-- Why a stream cannot be decompressed. -/
inductive InflateFault where
  /-- The stream breaks the rules; the offset is the number of bytes fetched. -/
  | corrupt (offset : Nat)
  /-- The stream ends too early. -/
  | truncated
deriving DecidableEq

def InflateFault.text : InflateFault → Text
  | corrupt offset => "flate: corrupt input before offset " ++ Text.ofNat offset
  | truncated => "unexpected EOF"

/-- The state of decompressing: the next byte to fetch, the bits fetched but not used, and what was
put out. -/
structure Inflater where
  data : ByteArray
  pos : Nat := 0
  /-- Unused bits, the next one lowest. -/
  buffer : Nat := 0
  /-- The number of unused bits. -/
  held : Nat := 0
  out : ByteArray := ByteArray.empty

abbrev Inflate := ExceptT InflateFault (StateM Inflater)

namespace Inflate

/-- Ends with a violation of the rules. -/
def corrupt {α : Type} : Inflate α := do throw (.corrupt (← get).pos)

def fetch : Inflate Unit := do
  let s ← get
  if h : s.pos < s.data.size then
    set { s with
      pos := s.pos + 1
      buffer := s.buffer + (s.data[s.pos].toNat <<< s.held)
      held := s.held + 8 }
  else throw .truncated

/-- Fetches bytes, at most `tries` of them, until there are `n` bits. -/
def ensure (n : Nat) : (tries : Nat) → Inflate Unit
  | 0 => pure ()
  | tries + 1 => do
    if (← get).held < n then
      fetch
      ensure n tries

/-- Takes `n` bits, at most sixteen, as a number with the first bit lowest. -/
def bits (n : Nat) : Inflate Nat := do
  ensure n 2
  let s ← get
  set { s with buffer := s.buffer >>> n, held := s.held - n }
  return s.buffer % (1 <<< n)

def emit (b : UInt8) : Inflate Unit := modify fun s => { s with out := s.out.push b }

/-- Puts out a byte that was put out `distance` places before, `n` times. -/
def repeat_ (distance : Nat) : (n : Nat) → Inflate Unit
  | 0 => pure ()
  | n + 1 => do
    let out := (← get).out
    emit (if h : out.size - distance < out.size then out[out.size - distance] else 0)
    repeat_ distance n

end Inflate

/-- A prefix code given by the lengths of its words: words of one length are consecutive numbers, in
the order of their symbols, and shorter words come first. -/
structure PrefixCode where
  /-- How many words there are of each length up to the greatest. -/
  counts : Array Nat
  /-- The symbols in the order of their words. -/
  symbols : Array Nat
  /-- Bits fetched before a word is looked for. -/
  least : Nat

namespace PrefixCode

/-- Whether the words of the counted lengths use up all sequences of bits. A code with a single word
of one bit is complete enough. -/
def isComplete (counts : List Nat) : Bool :=
  let total := counts.foldl (fun total n => total * 2 + n) 0
  total == 1 <<< (counts.length - 1) || (total == 1 && counts.length == 2)

/-- The code of symbols whose words have the given lengths; zero stands for no word. -/
def ofLengths? (lengths : List Nat) : Option PrefixCode :=
  let greatest := lengths.foldl max 0
  let counts := (List.range (greatest + 1)).map fun n =>
    if n = 0 then 0 else (lengths.filter (· == n)).length
  if greatest = 0 then some { counts := #[], symbols := #[], least := 0 }
  else if isComplete counts then
    let bySize := (List.range' 1 greatest).flatMap fun n =>
      (lengths.zipIdx.filter fun entry => entry.1 == n).map Prod.snd
    some { counts := counts.toArray, symbols := bySize.toArray, least := counts.findIdx (· > 0) }
  else none

/-- Reads a word bit by bit. `length` is the length so far, `code` the word so far, `first` the
first word of that length and `index` its place. -/
def walk (c : PrefixCode) : (left length code first index : Nat) → Inflate Nat
  | 0, _, _, _, _ => Inflate.corrupt
  | left + 1, length, code, first, index => do
    let code := code * 2 + (← Inflate.bits 1)
    let first := first * 2
    let count := c.counts.getD (length + 1) 0
    if code < first + count then return c.symbols.getD (index + (code - first)) 0
    else walk c left (length + 1) code (first + count) (index + count)

def read (c : PrefixCode) : Inflate Nat := do
  Inflate.ensure c.least 2
  c.walk (c.counts.size - 1) 0 0 0 0

/-- The code of blocks that transmit none. -/
def fixed : PrefixCode :=
  let lengths := List.replicate 144 8 ++ List.replicate 112 9 ++ List.replicate 24 7 ++
    List.replicate 8 8
  (ofLengths? lengths).getD { counts := #[], symbols := #[], least := 0 }

end PrefixCode

namespace Inflate

def endSymbol : Nat := 256

def pieceLength (symbol : Nat) : Inflate Nat := do
  if symbol < 265 then return symbol - 254
  else if symbol < 285 then
    let extra := (symbol - 261) / 4
    return ((4 + (symbol - 265) % 4) <<< extra) + 3 + (← bits extra)
  else if symbol = 285 then return 258
  else corrupt

def pieceDistance (symbol : Nat) : Inflate Nat := do
  if symbol < 4 then return symbol + 1
  else if symbol < 30 then
    let extra := (symbol - 2) / 2
    return ((2 + symbol % 2) <<< extra) + 1 + (← bits extra)
  else corrupt

def reversedFive : Inflate Nat := do
  let n ← bits 5
  return n % 2 * 16 + n / 2 % 2 * 8 + n / 4 % 2 * 4 + n / 8 % 2 * 2 + n / 16

/-- The symbols of a block up to its end. Each takes at least one bit, which bounds the steps. -/
def symbols (code : PrefixCode) (distances : Option PrefixCode) : (fuel : Nat) → Inflate Unit
  | 0 => corrupt
  | fuel + 1 => do
    let symbol ← code.read
    if symbol < endSymbol then
      emit (UInt8.ofNat symbol)
      symbols code distances fuel
    else if symbol = endSymbol then return
    else
      let length ← pieceLength symbol
      let distance ← pieceDistance (← match distances with
        | some code => code.read
        | none => reversedFive)
      if distance > (← get).out.size then corrupt
      repeat_ distance length
      symbols code distances fuel

def lengthOrder : List Nat := [16, 17, 18, 0, 8, 7, 9, 6, 10, 5, 11, 4, 12, 3, 13, 2, 14, 1, 15]

/-- How often a length is repeated. -/
def repeatCount (symbol : Nat) : Inflate Nat := do
  if symbol = 16 then return 3 + (← bits 2)
  else if symbol = 17 then return 3 + (← bits 3)
  else return 11 + (← bits 7)

/-- Reads `total` lengths of words, given the last ones first. Symbols above fifteen repeat. -/
def lengths (code : PrefixCode) (total : Nat) : (fuel : Nat) → List Nat → Inflate (List Nat)
  | 0, found => return found.reverse
  | fuel + 1, found => do
    if found.length ≥ total then return found.reverse
    let symbol ← code.read
    if symbol < 16 then lengths code total fuel (symbol :: found)
    else
      let previous ←
        if symbol = 16 then
          match found with
          | [] => corrupt
          | last :: _ => pure last
        else pure 0
      let count ← repeatCount symbol
      if found.length + count > total then corrupt
      lengths code total fuel (List.replicate count previous ++ found)

def codeOf (lengths : List Nat) : Inflate PrefixCode :=
  match PrefixCode.ofLengths? lengths with
  | some code => pure code
  | none => corrupt

/-- Reads the two codes of a block that transmits them. The bits of the end symbol are fetched
before any symbol is looked for, as every block has one. -/
def codes : Inflate (PrefixCode × PrefixCode) := do
  ensure 14 2
  let literals := (← bits 5) + 257
  if literals > 286 then corrupt
  let distances := (← bits 5) + 1
  if distances > 30 then corrupt
  let count := (← bits 4) + 4
  let given ← (lengthOrder.take count).mapM fun place => return (place, ← bits 3)
  let lengthCode ← codeOf ((List.range 19).map fun place => (given.lookup place).getD 0)
  let total := literals + distances
  let all ← lengths lengthCode total total []
  let literalCode ← codeOf (all.take literals)
  let distanceCode ← codeOf (all.drop literals)
  let least := max literalCode.least (all.getD endSymbol 0)
  return ({ literalCode with least }, distanceCode)

def copy : (n : Nat) → Inflate Unit
  | 0 => pure ()
  | n + 1 => do
    let s ← get
    if h : s.pos < s.data.size then
      set { s with pos := s.pos + 1, out := s.out.push s.data[s.pos] }
      copy n
    else throw .truncated

/-- A block of stored bytes: their number, its complement, and the bytes. -/
def stored : Inflate Unit := do
  modify fun s => { s with buffer := 0, held := 0 }
  let s ← get
  if s.pos + 4 > s.data.size then
    set { s with pos := s.data.size }
    throw .truncated
  let size ← bits 16
  let check ← bits 16
  if size + check ≠ 65535 then corrupt
  copy size

/-- Blocks up to the last one. Each takes at least three bits, which bounds the steps. -/
def blocks (limit : Nat) : (fuel : Nat) → Inflate Unit
  | 0 => corrupt
  | fuel + 1 => do
    ensure 3 1
    let isLast := (← bits 1) = 1
    match ← bits 2 with
    | 0 => stored
    | 1 => symbols .fixed none limit
    | 2 =>
      let (code, distances) ← codes
      symbols code (some distances) limit
    | _ => corrupt
    if isLast then return
    blocks limit fuel

end Inflate

/-- Decompresses a stream: what was put out, and the fault that ended it, if one did. -/
def inflate (data : ByteArray) : ByteArray × Option InflateFault :=
  let limit := 8 * data.size + 1
  let (outcome, s) := (Inflate.blocks limit limit).run.run { data }
  match outcome with
  | .ok _ => (s.out, none)
  | .error fault => (s.out, some fault)

end DexLift.Archive
