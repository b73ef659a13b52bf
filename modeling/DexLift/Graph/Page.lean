import DexLift.Graph.Calls

/-!
# The index page

A page that sums up the drawings of an input and links to them.
-/

namespace DexLift.Graph

structure Index where
  title : Text
  stats : Stats
  entries : List Text
  reachable : Nat
  /-- The number of drawings of single methods. -/
  blockDrawings : Nat := 0
  hasCalls : Bool := false
  hasClasses : Bool := false
  hasReachable : Bool := false

/-- A method name as a file name: characters that paths treat specially become underscores, and at
most two hundred bytes are kept. -/
def fileName (name : Text) : Text :=
  let special : List Nat := [47, 92, 58, 59, 42, 63, 34, 60, 62, 40, 41, 91, 124, 32]
  let codes := name.runes.map fun r => if special.contains r.code then 95 else r.code
  (Text.ofCodes codes).take 200

def styleSheet : String :=
  "\n".intercalate [
    "body \x7b font: 14px/1.4 \"Helvetica Neue\", Arial, sans-serif; color: #1A1A1A; " ++
      "background: #FAFAFA; margin: 2em auto; max-width: 960px; \x7d",
    "h1 \x7b font-size: 18px; \x7d",
    "h2 \x7b font-size: 14px; margin-top: 1.6em; border-bottom: 1px solid #DDD; \x7d",
    "table \x7b border-collapse: collapse; \x7d",
    "td, th \x7b text-align: left; padding: 2px 14px 2px 0; font-size: 13px; \x7d",
    "td.num \x7b text-align: right; font-variant-numeric: tabular-nums; \x7d",
    "td.m \x7b font-family: Menlo, \"Courier New\", monospace; font-size: 12px; \x7d",
    "a \x7b color: #0B3D91; \x7d",
    ".bar \x7b display: inline-block; height: 8px; border-radius: 2px; " ++
      "vertical-align: middle; \x7d"]

def kindOrder : List Text := ["direct", "static", "virtual", "interface", "super", "polymorphic"]

def tableEnd : Text := "</table>\n"

def bar (width : Nat) (color : String) : Text :=
  "<span class=\"bar\" style=\"width:" ++ Text.ofNat (max width 2) ++ "px;background:" ++ color ++
    "\"></span>"

def summary (i : Index) : List (String × Nat) :=
  [("Methods with code", i.stats.functions), ("Classes", i.stats.owners),
   ("Call sites", i.stats.calls), ("Calls leaving the input", i.stats.external),
   ("Entry points", i.entries.length), ("Reachable methods", i.reachable)] ++
    if i.blockDrawings > 0 then [("CFGs generated", i.blockDrawings)] else []

/-- The table of kinds of calls; left out when there are no calls. -/
def kindTable (s : Stats) : Text :=
  if s.calls = 0 then ∅
  else
    Text.concat ([Text.ofString "<h2>Invoke Kinds</h2>\n<table>\n"] ++
      (kindOrder.filter fun kind => s.ofKind kind > 0).map (fun kind =>
        let n := s.ofKind kind
        "<tr><td class=\"m\">invoke-" ++ kind ++ "</td><td class=\"num\">" ++
          Text.ofNat n ++ "</td><td>" ++ bar (n * 200 / s.calls) (Theme.standard.call kind) ++
          "</td></tr>\n") ++ [tableEnd])

def links (i : Index) : Text :=
  let all : List (Bool × String × String) :=
    [(i.hasReachable, "reachable.svg", "Reachable call tree"),
     (i.hasClasses, "classgraph.svg", "Class-level graph"),
     (i.hasCalls, "callgraph.svg", "Method-level graph"),
     (i.blockDrawings > 0, "cfg/", "Per-method CFGs")]
  let present : List Text := (all.filter Prod.fst).map fun (_, target, text) =>
    Text.ofString ("<a href=\"" ++ target ++ "\">" ++ text ++ "</a>")
  if present.isEmpty then
    "<p style=\"color:#9E9E9E\">Run with --svg and graphviz installed to link SVGs here.</p>\n"
  else "<p>" ++ Text.join " | " present ++ "</p>\n"

/-- The table of entry points, at most fifty of them; left out when there are none. -/
def entryTable (i : Index) : Text :=
  let count := i.entries.length
  if count = 0 then ∅
  else
    let row (name : Text) : Text :=
      "<tr><td class=\"m\">" ++ escape name ++
        (if i.blockDrawings > 0 then " <a href=\"cfg/" ++ fileName name ++ ".svg\">[cfg]</a>"
         else ∅) ++ "</td></tr>\n"
    let more : Text :=
      if count > 50 then "<tr><td>" ++ Text.ofNat (count - 50) ++ " more</td></tr>\n" else ∅
    Text.concat (["<h2>Entry Points</h2>\n<p>" ++ Text.ofNat count ++
      " methods that nothing in the input calls.</p>\n<table>\n"] ++
      (i.entries.take 50).map row ++ [more, tableEnd])

/-- A table of at most `limit` ranked names; left out when there are none. Bars are drawn in
relation to the first row. -/
def countTable (heading column : String) (limit : Nat) (withBars : Bool)
    (rows : List (Text × Nat)) : Text :=
  match rows with
  | [] => ∅
  | (_, greatest) :: _ =>
    let row (name : Text) (n : Nat) : Text :=
      "<tr><td class=\"m\">" ++ escape name ++ "</td><td class=\"num\">" ++ Text.ofNat n ++
        "</td>" ++
        (if withBars && greatest > 0 then
          "<td>" ++ bar (n * 120 / greatest) "#0B3D91" ++ "</td>" else ∅) ++ "</tr>\n"
    Text.concat (["<h2>" ++ Text.ofString heading ++
      "</h2>\n<table>\n<tr><th>Name</th><th>" ++ column ++ "</th></tr>\n"] ++
      (rows.take limit).map (fun (name, n) => row name n) ++ [tableEnd])

def page (i : Index) : Text :=
  let title := escape i.title
  Text.concat [
    "<!DOCTYPE html>\n<html lang=\"en\">\n<head>\n<meta charset=\"utf-8\">\n<title>" ++ title ++
      "</title>\n<style>\n" ++ styleSheet ++ "\n</style>\n</head>\n<body>\n<h1>" ++ title ++
      "</h1>\n",
    "<h2>Summary</h2>\n<table>\n",
    Text.concat ((summary i).map fun (name, n) =>
      "<tr><td>" ++ Text.ofString name ++ "</td><td class=\"num\">" ++ Text.ofNat n ++
        "</td></tr>\n"),
    tableEnd,
    kindTable i.stats,
    "<h2>Graphs</h2>\n",
    links i,
    entryTable i,
    countTable "Top Classes" "Methods" 20 true i.stats.topOwners,
    countTable "Top Callers" "Outgoing" 15 false i.stats.topCallers,
    countTable "Top Callees" "Incoming" 15 false i.stats.topCallees,
    "</body></html>\n"]

end DexLift.Graph
