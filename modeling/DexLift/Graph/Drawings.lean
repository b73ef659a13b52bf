import DexLift.Graph.Calls

/-!
# Drawings of calls

Calls are drawn between methods or between their classes.
-/

namespace DexLift

/-!
## Drawing calls between methods

Methods of one class stand in a frame. One drawing shows all methods that take
part in calls, another those that can be reached from entry points.
-/

namespace Graph

def lineStyle (kind : Text) : String :=
  if kind = "virtual" ∨ kind = "interface" then "dotted"
  else if kind = "polymorphic" then "dashed"
  else "solid"

/-- The width of a line that stands for several calls, with one place. -/
def lineWidth (count : Nat) : Text := Decimal.fixed 1 (0.5 + Float.ofNat count * 0.1)

def edges (all : List Caller) : List Edge :=
  all.flatMap fun f => f.calls.map fun c => ⟨f.name, c.callee, c.kind⟩

/-- The first `limit` elements, or all when the limit is zero or less. -/
def atMost {α : Type} (limit : Int) (xs : List α) : List α :=
  if limit > 0 then xs.take limit.toNat else xs

def labelled (name label attributes : Text) : Text :=
  "  " ++ identifier name ++ " [label=" ++ label.quote ++ attributes ++ "];\n"

def drawEdge (source target attributes : Text) : Text :=
  "  " ++ identifier source ++ " -> " ++ identifier target ++ " [" ++ attributes ++ "];\n"

def callLine (t : Theme) (e : Edge) (count : Nat) : Text :=
  let color := t.call e.kind
  let width : Text := if count > 1 then ", penwidth=" ++ lineWidth count else ∅
  let label : Text :=
    if count > 2 then
      ", label=<<font point-size=\"7\" color=\"" ++ Text.ofString color ++ "\">" ++
        Text.ofNat count ++ "x</font>>"
    else ∅
  drawEdge e.source e.target
    ("color=" ++ quoted color ++ ", style=" ++ quoted (lineStyle e.kind) ++ width ++ label)

/-- The drawing of all calls, with at most `limit` methods of the input. Callees outside the input
have no border. -/
def callsDot (t : Theme) (all : List Caller) (title : Text) (limit : Int) : Text :=
  let counted := tallyEdges (edges all)
  let active : Std.HashSet Text :=
    .ofList (counted.flatMap fun (e, _) => [e.source, e.target])
  let shown := atMost limit (all.filter fun f => active.contains f.name)
  let owners : Std.HashMap Text Text := shown.foldl (fun table f => table.insert f.name f.owner) ∅
  let drawn := counted.filter fun (e, _) => owners.contains e.source
  let external := distinct ((drawn.map fun (e, _) => e.target).filter fun n => !owners.contains n)
  let (groups, loose) := group (fun n => owners.getD n ∅) (shown.map Caller.name)
  let layout := { methodLayout t with edge := "penwidth=0.5, arrowsize=0.5, arrowhead=vee" }
  Text.concat ([opening "callgraph" title t layout] ++
    groups.map (fun g => cluster t g fun name =>
      labelled name (shorten 50 (memberName name g.owner)) ∅) ++
    loose.map (fun name => labelled name (shorten 60 name) ∅) ++ [blankLine] ++
    external.map (fun name => labelled name (shorten 50 name)
      (", shape=plaintext, style=\"\", fillcolor=none, fontcolor=" ++ quoted t.externalText ++
        ", fontsize=8")) ++ [blankLine] ++
    drawn.map (fun (e, count) => callLine t e count) ++ [closing])

/-- The drawing of the calls between methods that can be reached; entry points stand out. -/
def reachableDot (t : Theme) (all : List Caller) (reached : Std.HashSet Text) (entries : List Text)
    (title : Text) : Text :=
  let between := (edges all).filter fun e => reached.contains e.source && reached.contains e.target
  let counted := tallyEdges (between.map fun e => { e with kind := ∅ })
  let names := distinct (between.flatMap (fun e => [e.source, e.target]) ++ entries)
  let isEntry : Std.HashSet Text := .ofList entries
  let node (owner name : Text) : Text :=
    labelled name (shorten 50 (memberName name owner))
      (if isEntry.contains name then ", penwidth=1.5, color=" ++ quoted t.entryBorder else ∅)
  let (groups, loose) := group ownerOf names
  Text.concat ([opening "reachable" title t (methodLayout t)] ++
    groups.map (fun g => cluster t g (node g.owner)) ++ loose.map (node ∅) ++ [blankLine] ++
    counted.map (fun (e, count) => drawEdge e.source e.target
      ("color=" ++ quoted t.directCall ++
        (if count > 1 then ", penwidth=" ++ lineWidth count else ∅))) ++ [closing])

/-!
## Drawing calls between classes

Each class is one node, as high as the logarithm of its number of methods, and
the calls from one class to another are one edge, as wide as the logarithm of
their number.
-/

/-- The natural logarithm of a number between one half and one: with `s = f / (2 + f)` the logarithm
of `1 + f` is `2 s` plus a series in the even powers of `s`, of which seven terms are taken. -/
def logFraction (x : Float) : Float :=
  let low := x < 0.70710678118654752440
  let scaled := if low then x * 2 else x
  let k : Float := if low then -1 else 0
  let f := scaled - 1
  let s := f / (2 + f)
  let s2 := s * s
  let s4 := s2 * s2
  let odd := s2 * (6.666666666666735130e-01 + s4 * (2.857142874366239149e-01 +
    s4 * (1.818357216161805012e-01 + s4 * 1.479819860511658591e-01)))
  let even := s4 * (3.999999999940941908e-01 + s4 * (2.222219843214978396e-01 +
    s4 * 1.531383769920937332e-01))
  let half := 0.5 * f * f
  k * 6.93147180369123816490e-01 -
    ((half - (s * (half + (odd + even)) + k * 1.90821492927058770002e-10)) - f)

/-- The binary logarithm of a positive number: the exponent and the logarithm of the fraction. -/
def log2 (x : Float) : Float :=
  let (fraction, exponent) := x.frExp
  if fraction == 0.5 then Float.ofInt (exponent - 1)
  else logFraction fraction * 1.44269504088896340735992468100189214 + Float.ofInt exponent

def share (scale : Float) (count greatest : Nat) : Float :=
  scale * log2 (Float.ofNat count + 1) / log2 (Float.ofNat greatest + 1)

def classLayout (t : Theme) : Layout where
  rankdir := "LR"
  nodesep := "0.5"
  ranksep := "0.8"
  node :=
    "shape=rect, style=\"filled,rounded\", fillcolor=" ++ quoted t.nodeFill ++ ", color=" ++
      quoted t.nodeBorder ++
      ", penwidth=0.5, fontname=\"Helvetica Neue,Helvetica,Arial\", fontsize=10, fontcolor=" ++
      quoted t.text ++ ", height=0.4, margin=\"0.15,0.08\""
  edge := "penwidth=0.5, arrowsize=0.5, arrowhead=vee, color=" ++ quoted t.directCall
  titleSize := 8

def classEdges (all : List Caller) : List Edge :=
  all.flatMap fun f => f.calls.filterMap fun c =>
    let target := ownerOf c.callee
    if target.isEmpty || target == f.owner then none else some ⟨f.owner, target, ∅⟩

/-- The drawing of the calls between classes. With a positive limit, the classes with the most calls
are shown. -/
def classesDot (t : Theme) (all : List Caller) (title : Text) (limit : Int) : Text :=
  let methods : Std.HashMap Text Nat := .ofList (tally (all.map Caller.owner))
  let counted := tallyEdges (classEdges all)
  let ends := (classEdges all).flatMap fun e => [e.source, e.target]
  let ranked := atMost limit (top ends.length ends)
  let most := ranked.foldl (fun most (name, _) => max most (methods.getD name 0)) 1
  let shown : Std.HashSet Text := .ofList (ranked.map Prod.fst)
  let node (name : Text) : Text :=
    match methods[name]? with
    | none => labelled name name (", fontcolor=" ++ quoted t.externalText)
    | some count =>
      "  " ++ identifier name ++ " [label=<<font point-size=\"10\">" ++ escape name ++
        "</font><br/><font point-size=\"7\" color=\"" ++ t.externalText ++ "\">" ++
        Text.ofNat count ++ " methods</font>>, height=" ++
        Decimal.fixed 2 (0.4 + share 0.3 count most) ++ "];\n"
  let drawn := counted.filter fun (e, _) => shown.contains e.source && shown.contains e.target
  let greatest := drawn.foldl (fun greatest (_, count) => max greatest count) 1
  let edge (e : Edge) (count : Nat) : Text :=
    let label : Text :=
      if count > 1 then
        ", label=<<font point-size=\"7\" color=\"" ++ Text.ofString t.externalText ++ "\">" ++
          Text.ofNat count ++ "</font>>"
      else ∅
    drawEdge e.source e.target
      ("penwidth=" ++ Decimal.fixed 1 (0.5 + share 2 count greatest) ++ label)
  Text.concat ([opening "classgraph" title t (classLayout t)] ++
    ranked.map (fun (name, _) => node name) ++ [blankLine] ++
    drawn.map (fun (e, count) => edge e count) ++ [closing])

end Graph

end DexLift
