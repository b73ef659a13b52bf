import DexLift.Dex.Tree
import DexLift.Graph.Dot
import DexLift.Ir.Blocks
import Std.Data.HashMap
import Std.Data.HashSet

/-!
# Who calls whom

Methods are nodes, named by class, name and descriptor, and calls are edges. A
method of the input that is called can be reached; methods that nothing else in
the input calls, and class initializers, are where execution can enter.
-/

namespace DexLift.Graph

structure Call where
  /-- Offset of the call in the code. -/
  addr : Nat
  callee : Text
  /-- How the callee is found. -/
  kind : Text
deriving DecidableEq

structure Caller where
  name : Text
  /-- The class the method belongs to. -/
  owner : Text
  calls : List Call
deriving DecidableEq

def nodeName (ref : MethodRef) : Text :=
  Descriptor.className ref.owner ++ "." ++ ref.name ++ ref.desc

/-- How a call instruction finds its method; a call site has none. -/
def callKind? (op : Dex.Opcode) : Option String :=
  let kinds : List (List UInt8 × String) :=
    [([0x6e, 0x74], "virtual"), ([0x6f, 0x75], "super"), ([0x70, 0x76], "direct"),
     ([0x71, 0x77], "static"), ([0x72, 0x78], "interface"), ([0xfa, 0xfb], "polymorphic")]
  (kinds.find? fun entry => entry.1.contains op.code).map Prod.snd

def callOf? (file : Dex.File) (i : Dex.Instruction) : Option Call := do
  let kind ← callKind? i.op
  match file.method i.index with
  | .ok ref => some ⟨i.addr.toNat, nodeName ref, kind⟩
  | .error _ => none

def callers (file : Dex.File) (classes : List Dex.ClassNode) : List Caller :=
  classes.flatMap fun c => c.methods.filterMap fun m =>
    m.code.map fun code =>
      { name := nodeName m.ref, owner := Descriptor.className c.name
        calls := code.instructions.filterMap (callOf? file) }

/-- An edge between two nodes. -/
structure Edge where
  source : Text
  target : Text
  kind : Text
deriving DecidableEq, BEq, Hashable

/-- Whether an edge comes before another: by source, target and kind. -/
def Edge.le (a b : Edge) : Bool :=
  ((compare a.source b.source).then ((compare a.target b.target).then
    (compare a.kind b.kind))) != .gt

/-- How often each edge occurs, in order. -/
def tallyEdges (edges : List Edge) : List (Edge × Nat) := runs (edges.mergeSort Edge.le)

/-- The nodes of methods, each once. -/
def nodes (all : List Caller) : List Text := (all.map Caller.name).eraseDups

def pairs (all : List Caller) : List (Text × Text) :=
  (all.flatMap fun f => f.calls.map fun c => (f.name, c.callee)).eraseDups

/-- Methods that no other method calls, and class initializers, in order. -/
def entryPoints (all : List Caller) : List Text :=
  let called : Std.HashSet Text := .ofList (all.flatMap fun f =>
    (f.calls.map Call.callee).filter (· != f.name))
  Text.sort ((all.map Caller.name).filter fun name =>
    !called.contains name || name.contains ".<clinit>(")

def callees (all : List Caller) : Std.HashMap Text (List Text) :=
  all.foldl (fun table f =>
    table.insert f.name (table.getD f.name [] ++ f.calls.map Call.callee)) ∅

/-- Adds what can be reached from the nodes still to be visited. Every call puts its callee on the
list at most once, which bounds the steps. -/
def reach (next : Std.HashMap Text (List Text)) :
    (fuel : Nat) → (work : List Text) → Std.HashSet Text → Std.HashSet Text
  | 0, _, seen => seen
  | _, [], seen => seen
  | fuel + 1, name :: work, seen =>
    if seen.contains name then reach next fuel work seen
    else reach next fuel (next.getD name [] ++ work) (seen.insert name)

/-- The nodes that can be reached from some nodes along calls, those nodes included. -/
def reachable (all : List Caller) (entries : List Text) : Std.HashSet Text :=
  let calls := (all.map fun f => f.calls.length).foldr (· + ·) 0
  reach (callees all) (entries.length + calls + 1) entries ∅

/-- The class a node belongs to: what stands before the last point of the part before the
descriptor; empty when there is no such part. -/
def ownerOf (name : Text) : Text :=
  let head := name.bytes.takeWhile (· != 40)
  let behind := head.reverse.takeWhile (· != 46)
  ⟨head.take (head.length - behind.length - 1)⟩

structure BlockCall where
  position : Nat
  callee : Text

def calleeOf? (e : Ir.Expr) : Option Text :=
  match e.head with
  | .invoke _ method => some (nodeName method)
  | .construct _ method => some (nodeName method)
  | _ => none

def blockCalls (g : Ir.BlockGraph) (b : Ir.Block) : List BlockCall :=
  let inside := (g.stmts.zipIdx.drop b.start).take (b.stop - b.start)
  inside.flatMap fun (s, position) =>
    ((s.action.operands.flatMap Ir.Expr.nodes).filterMap calleeOf?).map fun callee =>
      ⟨position, callee⟩

/-!
## Numbers about calls
-/

structure Stats where
  functions : Nat
  calls : Nat
  /-- Calls whose callee is outside the input. -/
  external : Nat
  owners : Nat
  /-- Calls of each kind, in order of the kinds. -/
  kinds : List (Text × Nat)
  topCallers : List (Text × Nat)
  topCallees : List (Text × Nat)
  topOwners : List (Text × Nat)

def stats (all : List Caller) : Stats :=
  let known : Std.HashSet Text := .ofList (all.map Caller.name)
  let calls := all.flatMap Caller.calls
  let owners := (all.map Caller.owner).filter fun owner => !owner.isEmpty
  { functions := all.length
    calls := calls.length
    external := (calls.filter fun c => !known.contains c.callee).length
    owners := (distinct owners).length
    kinds := tally (calls.map Call.kind)
    topCallers := top 20 (all.flatMap fun f => f.calls.map fun _ => f.name)
    topCallees := top 20 (calls.map Call.callee)
    topOwners := top 30 owners }

def Stats.ofKind (s : Stats) (kind : Text) : Nat :=
  ((s.kinds.find? fun entry => entry.1 == kind).map Prod.snd).getD 0

end DexLift.Graph
