import DexLift.Text.Quoted

/-!
# Drawing graphs

Graphs are written in the DOT language. What they show is counted by name.
-/

namespace DexLift

/-!
## Counting names

Counts are kept as lists of names with the number of their occurrences, in
ascending order, or ranked by number.
-/

namespace Graph

/-- The runs of equal neighbours, each with its length. -/
def runs {α : Type} [BEq α] : List α → List (α × Nat)
  | [] => []
  | x :: rest =>
    match runs rest with
    | (y, n) :: more => if x == y then (y, n + 1) :: more else (x, 1) :: (y, n) :: more
    | [] => [(x, 1)]

/-- How often each name occurs, in ascending order of the names. -/
def tally (names : List Text) : List (Text × Nat) := runs (Text.sort names)

/-- The names that occur, each once, in ascending order. -/
def distinct (names : List Text) : List Text := (tally names).map Prod.fst

/-- The `limit` names that occur most often; of names with one count the smaller comes first. -/
def top (limit : Nat) (names : List Text) : List (Text × Nat) :=
  ((tally names).mergeSort fun a b => b.2 ≤ a.2).take limit

/-- Names that belong together. -/
structure Group where
  owner : Text
  names : List Text

def gather : List (Text × Text) → List Group
  | [] => []
  | (owner, name) :: rest =>
    match gather rest with
    | g :: more =>
      if g.owner = owner then ⟨owner, name :: g.names⟩ :: more
      else ⟨owner, [name]⟩ :: g :: more
    | [] => [⟨owner, [name]⟩]

/-- Divides names into groups of at least two with the same owner, in order, and the rest, in order.
A name without owner belongs to the rest. -/
def group (owner : Text → Text) (names : List Text) : List Group × List Text :=
  let owned := (Text.sort (names.filter fun n => !(owner n).isEmpty)).map fun n => (owner n, n)
  let groups := gather (owned.mergeSort fun a b => Text.le a.1 b.1)
  let (large, small) := groups.partition fun g => g.names.length ≥ 2
  let free := names.filter fun n => (owner n).isEmpty
  (large, Text.sort (free ++ small.flatMap Group.names))

/-!
## Drawing graphs

Graphs are written in the DOT language. Names become identifiers in which every
byte that is no letter, digit or underscore is written by number. Labels in
markup escape the characters that markup uses.
-/

/-- The colours of a drawing. -/
structure Theme where
  background : String
  nodeFill : String
  nodeBorder : String
  text : String
  /-- Calls by kind. -/
  virtualCall : String
  interfaceCall : String
  directCall : String
  staticCall : String
  polymorphicCall : String
  /-- Branches that are taken, and the cases of a switch. -/
  taken : String
  notTaken : String
  flow : String
  exception : String
  entryBorder : String
  terminalFill : String
  handlerFill : String
  /-- Methods outside the input. -/
  externalText : String
  clusterBorder : String
  clusterLabel : String

/-- Black on light gray, with few colours. -/
def Theme.standard : Theme where
  background := "#F5F5F5"
  nodeFill := "white"
  nodeBorder := "#1A1A1A"
  text := "#1A1A1A"
  virtualCall := "#9E9E9E"
  interfaceCall := "#00695C"
  directCall := "#424242"
  staticCall := "#0B3D91"
  polymorphicCall := "#E65100"
  taken := "#0B3D91"
  notTaken := "#FC3D21"
  flow := "#424242"
  exception := "#E65100"
  entryBorder := "#0B3D91"
  terminalFill := "#ECEFF1"
  handlerFill := "#FFF3E0"
  externalText := "#9E9E9E"
  clusterBorder := "#BDBDBD"
  clusterLabel := "#757575"

def Theme.call (t : Theme) (kind : Text) : String :=
  if kind = "virtual" then t.virtualCall
  else if kind = "interface" then t.interfaceCall
  else if kind = "static" then t.staticCall
  else if kind = "polymorphic" then t.polymorphicCall
  else t.directCall

def escapeByte (b : UInt8) : List UInt8 :=
  if b = 38 then (Text.ofString "&amp;").bytes
  else if b = 60 then (Text.ofString "&lt;").bytes
  else if b = 62 then (Text.ofString "&gt;").bytes
  else if b = 34 then (Text.ofString "&quot;").bytes
  else [b]

def escape (t : Text) : Text := ⟨t.bytes.flatMap escapeByte⟩

/-- Whether a byte is a letter, a digit or an underscore. -/
def isWordByte (b : UInt8) : Bool :=
  (97 ≤ b && b ≤ 122) || (65 ≤ b && b ≤ 90) || (48 ≤ b && b ≤ 57) || b == 95

def identifierByte (b : UInt8) : List UInt8 :=
  if isWordByte b then [b] else 95 :: (Text.hex b.toNat 1).bytes

def identifier (name : Text) : Text := "n_" ++ (⟨name.bytes.flatMap identifierByte⟩ : Text)

/-- A name without the class it belongs to, when it belongs to the given one. -/
def memberName (name owner : Text) : Text :=
  let start := owner ++ "."
  if name.startsWith start then name.drop start.length else name

/-- Text cut to at most `limit` code points, with an ellipsis where it was cut. -/
def shorten (limit : Nat) (t : Text) : Text :=
  let runes := t.runes
  if runes.length ≤ limit then t
  else Text.ofCodes ((runes.take (limit - 3)).map Text.Rune.code) ++ "..."

/-- A colour or another constant between quotes. -/
def quoted (s : String) : Text := Text.quote s

/-- The settings of a whole drawing. -/
structure Layout where
  rankdir : String
  nodesep : String
  ranksep : String
  /-- Attributes that all nodes have. -/
  node : Text
  /-- Attributes that all edges have. -/
  edge : Text
  titleSize : Nat

def opening (name : String) (title : Text) (t : Theme) (l : Layout) : Text :=
  let heading : Text :=
    if title.isEmpty then ∅
    else
      "  labelloc=t;\n  labeljust=l;\n" ++
        "  label=<<font face=\"Helvetica Neue,Helvetica\" point-size=\"" ++
        Text.ofNat l.titleSize ++ "\" color=\"" ++ t.text ++ "\">" ++ escape title ++ "</font>>;\n"
  "digraph " ++ Text.ofString name ++ " \x7b\n  rankdir=" ++ l.rankdir ++ ";\n  nodesep=" ++
    l.nodesep ++ ";\n  ranksep=" ++ l.ranksep ++ ";\n  bgcolor=" ++ quoted t.background ++
    ";\n  node [" ++ l.node ++ "];\n  edge [" ++ l.edge ++ "];\n" ++ heading ++ "\n"

/-- The empty line between the parts of a drawing. -/
def blankLine : Text := "\n"

def closing : Text := "\x7d\n"

/-- The settings of drawings whose nodes are methods. -/
def methodLayout (t : Theme) : Layout where
  rankdir := "LR"
  nodesep := "0.4"
  ranksep := "0.6"
  node :=
    "shape=rect, style=filled, fillcolor=" ++ quoted t.nodeFill ++ ", color=" ++
      quoted t.nodeBorder ++
      ", penwidth=0.5, fontname=\"Helvetica Neue,Helvetica,Arial\", fontsize=9, fontcolor=" ++
      quoted t.text ++ ", height=0.3, margin=\"0.12,0.06\""
  edge := "penwidth=0.5, arrowsize=0.5, arrowhead=vee, color=" ++ quoted t.directCall
  titleSize := 8

/-- The frame around the members of a class, each drawn by `node`. -/
def cluster (t : Theme) (g : Group) (node : Text → Text) : Text :=
  "  subgraph cluster_" ++ identifier g.owner ++ " \x7b\n" ++
    "    label=<<font point-size=\"8\" color=\"" ++
    t.clusterLabel ++ "\">" ++ escape g.owner ++ "</font>>;\n    style=dotted; color=" ++
    quoted t.clusterBorder ++ "; penwidth=0.3;\n" ++
    Text.concat (g.names.map fun name => "  " ++ node name) ++ "  \x7d\n"

end Graph

end DexLift
