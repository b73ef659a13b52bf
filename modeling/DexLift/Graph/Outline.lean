import DexLift.Ir.Printer
import DexLift.Graph.Calls

/-!
# Plain drawings

Nodes and edges with nothing else: methods with their calls, and the blocks of a
method without their statements. Names become identifiers in which every code
point that is no letter, digit or underscore is written with four digits.
-/

namespace DexLift.Graph

/-- A code point in the identifier of a plain drawing. -/
def plainCode (code : Nat) : Text :=
  if code < 128 && isWordByte (UInt8.ofNat code) then ⟨[UInt8.ofNat code]⟩
  else "_" ++ Text.hex code 4

def plainIdentifier (name : Text) : Text :=
  "n_" ++ Text.concat (name.runes.map fun r => plainCode r.code)

def plainOpening (name rankdir : String) (title : Text) (t : Theme) : Text :=
  let heading : Text :=
    if title.isEmpty then ∅
    else
      "  labelloc=t;\n  labeljust=l;\n" ++
        "  label=<<font face=\"Helvetica Neue,Helvetica\" point-size=\"8\" color=\"" ++
        Text.ofString t.text ++ "\">" ++ escape title ++ "</font>>;\n"
  "digraph " ++ Text.ofString name ++ " \x7b\n  rankdir=" ++ rankdir ++
    ";\n  splines=true;\n  nodesep=0.4;\n  ranksep=0.6;\n  bgcolor=" ++ quoted t.background ++
    ";\n  node [shape=rect, style=filled, fillcolor=" ++ t.nodeFill ++ ", color=" ++
    quoted t.nodeBorder ++
    ", penwidth=0.5, fontname=\"Helvetica Neue,Helvetica,Arial\", fontsize=9, fontcolor=" ++
    quoted t.text ++ ", height=0.3, margin=\"0.12,0.06\"];\n  edge [color=" ++
    quoted t.virtualCall ++ ", penwidth=0.5, arrowsize=0.5, arrowhead=vee];\n" ++ heading ++ "\n"

def plainNode (name : Text) : Text :=
  "  " ++ plainIdentifier name ++ " [label=" ++ name.quote ++ "];\n"

def outsideNode (t : Theme) (name : Text) : Text :=
  "  " ++ plainIdentifier name ++ " [label=" ++ name.quote ++
    ", shape=plaintext, style=\"\", fillcolor=none, fontcolor=" ++ quoted t.notTaken ++
    ", fontsize=8];\n"

/-- The edges between callers and callees. A callee outside the input is drawn before the first edge
that leads to it. -/
def plainEdges (t : Theme) (known : Std.HashSet Text) :
    (drawn : Std.HashSet Text) → List (Text × Text) → List Text
  | _, [] => []
  | drawn, (caller, callee) :: rest =>
    let edge : Text := "  " ++ plainIdentifier caller ++ " -> " ++ plainIdentifier callee
    if known.contains callee then (edge ++ ";\n") :: plainEdges t known drawn rest
    else
      let node : Text := if drawn.contains callee then ∅ else outsideNode t callee
      (node ++ edge ++ " [color=" ++ quoted t.notTaken ++ ", style=dashed, penwidth=0.4];\n") ::
        plainEdges t known (drawn.insert callee) rest

def callsOutline (t : Theme) (all : List Caller) (title : Text) : Text :=
  let methods := nodes all
  Text.concat ([plainOpening "callgraph" "LR" title t] ++ methods.map plainNode ++ [blankLine] ++
    plainEdges t (.ofList methods) ∅ (pairs all) ++ [closing])

/-- The blocks of a method; nothing when there are none. -/
def blocksOutline (t : Theme) (m : Ir.Method) : Outcome Text := do
  let g ← m.blockGraph
  if g.blocks.isEmpty then return ∅
  let name (id : Nat) : Text := "bb" ++ Text.ofNat id
  let edge (source : Nat) (e : Ir.BlockEdge) : Text :=
    "  " ++ plainIdentifier (name source) ++ " -> " ++ plainIdentifier (name e.block) ++
      (if e.cond.isEmpty then ∅ else " [label=" ++ e.cond.quote ++ "]") ++ ";\n"
  return Text.concat ([plainOpening "cfg" "TB" g.name t] ++
    g.blocks.map (fun b => plainNode (name b.id)) ++ [blankLine] ++
    g.blocks.flatMap (fun b => b.succs.map (edge b.id)) ++ [closing])

/-!
## Drawing the blocks of a method

Every block is a node that shows its statements; long blocks leave out the
middle. Edges are coloured by the condition under which they are taken.
-/

def blockLayout (t : Theme) : Layout where
  rankdir := "TB"
  nodesep := "0.3"
  ranksep := "0.4"
  node :=
    "shape=rect, style=filled, fillcolor=" ++ quoted t.nodeFill ++ ", color=" ++
      quoted t.nodeBorder ++
      ", penwidth=0.5, fontname=\"Courier,monospace\", fontsize=8, fontcolor=" ++ quoted t.text ++
      ", margin=\"0.08,0.04\""
  edge := "penwidth=0.7, arrowsize=0.5, arrowhead=vee"
  titleSize := 9

def lineBreak : Text := "<br align=\"left\"/>"

/-- More than twelve lines are cut down to the first and the last five. -/
def elide (lines : List Text) : List Text :=
  if lines.length > 12 then
    lines.take 5 ++ ["... (" ++ Text.ofNat (lines.length - 10) ++ " more)"] ++
      lines.drop (lines.length - 5)
  else lines

/-- A statement at a position as a node shows it. -/
def stmtLine (names : Ir.LabelNames) (position : Nat) (s : Ir.Stmt) : Text :=
  let text := s.action.text names
  escape (shorten 80 (if s.action.isLabel then text else Text.column 3 position ++ ": " ++ text))

def blockNode (t : Theme) (names : Ir.LabelNames) (g : Ir.BlockGraph) (b : Ir.Block) : Text :=
  let inside := (g.stmts.zipIdx.drop b.start).take (b.stop - b.start)
  let lines := elide (inside.map fun (s, position) => stmtLine names position s)
  let entry : Text :=
    if b.isEntry then ", penwidth=1.5, color=" ++ quoted t.entryBorder else ∅
  let fill : Text :=
    if b.isHandler then ", fillcolor=" ++ quoted t.handlerFill
    else if b.isTerminal then ", fillcolor=" ++ quoted t.terminalFill
    else ∅
  "  bb" ++ Text.ofNat b.id ++ " [label=<" ++ Text.join lineBreak lines ++ lineBreak ++ ">" ++
    entry ++ fill ++ "];\n"

def blockEdgeStyle (t : Theme) (cond : Text) : Text :=
  if cond.isEmpty then "color=" ++ quoted t.flow
  else if cond = "E" then "color=" ++ quoted t.exception ++ ", style=dashed"
  else
    let color := if cond = "F" ∨ cond = "default" then t.notTaken else t.taken
    "color=" ++ quoted color ++ ", label=<<font point-size=\"7\" color=\"" ++ color ++ "\">" ++
      escape cond ++ "</font>>"

def blockEdge (t : Theme) (source : Nat) (e : Ir.BlockEdge) : Text :=
  "  bb" ++ Text.ofNat source ++ " -> bb" ++ Text.ofNat e.block ++ " [" ++
    blockEdgeStyle t e.cond ++ "];\n"

/-- The drawing of the blocks of a method; nothing when there are none. -/
def blocksDot (t : Theme) (m : Ir.Method) : Outcome Text := do
  let g ← m.blockGraph
  if g.blocks.isEmpty then return ∅
  let names := Ir.LabelNames.ofMethod m
  return Text.concat ([opening "cfg" g.name t (blockLayout t)] ++
    g.blocks.map (blockNode t names g) ++ [blankLine] ++
    g.blocks.flatMap (fun b => b.succs.map (blockEdge t b.id)) ++ [closing])

end DexLift.Graph
