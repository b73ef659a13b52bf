import DexLift.Ir.Stmt

/-!
# Chains of statements

A statement on a chain knows its two neighbours, and the chain knows its ends.
Linking next to a statement that is on the chain, and taking one off, keeps both
directions the same sequence. Linking next to a statement that is off the chain
is allowed too: then what is found from one end need not be what is found from
the other.
-/

namespace DexLift.Ir

/-- A statement of a method, by number. -/
abbrev StmtId := Nat

/-- The neighbours of a statement, and whether it counts as linked. -/
structure Link where
  prev : Option StmtId := none
  next : Option StmtId := none
  linked : Bool := false
deriving Inhabited, DecidableEq, Repr

structure Chain where
  first : Option StmtId := none
  last : Option StmtId := none
  /-- The links by number of the statement. -/
  links : Array Link := #[]
deriving Inhabited, Repr

namespace Chain

def link (c : Chain) (id : StmtId) : Link := c.links.getD id {}

def modify (c : Chain) (id : StmtId) (change : Link → Link) : Chain :=
  let links := c.links ++ Array.replicate (id + 1 - c.links.size) default
  { c with links := links.modify id change }

/-- Makes `next` follow on `prev`, which may be the end in front of all statements. -/
def setNext (c : Chain) (prev next : Option StmtId) : Chain :=
  match prev with
  | none => { c with first := next }
  | some prev => c.modify prev fun l => { l with next }

/-- Makes `prev` precede `next`, which may be the end behind all statements. -/
def setPrev (c : Chain) (prev next : Option StmtId) : Chain :=
  match next with
  | none => { c with last := prev }
  | some next => c.modify next fun l => { l with prev }

/-- Links a statement between two neighbours. -/
def put (c : Chain) (prev next : Option StmtId) (id : StmtId) : Chain :=
  ((c.modify id fun _ => ⟨prev, next, true⟩).setNext prev (some id)).setPrev (some id) next

/-- Links a statement at the end. -/
def append (c : Chain) (id : StmtId) : Chain := c.put c.last none id

/-- Links a statement right before another. -/
def insertBefore (c : Chain) (place id : StmtId) : Chain :=
  c.put (c.link place).prev (some place) id

/-- Links a statement right after another. -/
def insertAfter (c : Chain) (place id : StmtId) : Chain :=
  c.put (some place) (c.link place).next id

/-- Takes a linked statement off. -/
def remove (c : Chain) (id : StmtId) : Chain :=
  let l := c.link id
  if l.linked then
    ((c.setNext l.prev l.next).setPrev l.prev l.next).modify id fun _ => {}
  else c

/-- The statements found from one on by a step, at most `fuel` of them. -/
def walk (step : StmtId → Option StmtId) : (fuel : Nat) → Option StmtId → List StmtId
  | 0, _ => []
  | _, none => []
  | fuel + 1, some id => id :: walk step fuel (step id)

/-- The statements from one on towards the end. -/
def forward (c : Chain) (start : Option StmtId) : List StmtId :=
  walk (fun id => (c.link id).next) (c.links.size + 1) start

/-- The statements from one on towards the beginning. -/
def backward (c : Chain) (start : Option StmtId) : List StmtId :=
  walk (fun id => (c.link id).prev) (c.links.size + 1) start

/-- The statements of the chain, found from its beginning. -/
def toList (c : Chain) : List StmtId := c.forward c.first

def ofList (ids : List StmtId) : Chain := ids.foldl append {}

end Chain

/-!
## Method bodies

A method owns its statements, locals and labels and hands out numbers for them.
A statement exists from the moment it is made; it belongs to the body while it
is linked, and the body is the list of linked statements in program order. The
method remembers which statement placed each label last.

A list is all there is to say about a body as long as every edit names a linked
place. An edit next to a statement that is not linked, or one that links a
statement twice, leaves a chain whose two directions differ; such a method keeps
the chain, and its body is what is found from the beginning.
-/

/-- A variable: its type, and its slot once one is assigned. -/
structure Local where
  type : Ty
  slot : Option Nat := none
deriving Inhabited, Repr

/-- Sends what is thrown strictly between two labels to a handler; the empty type means everything.
-/
structure Trap where
  start : Label
  stop : Label
  handler : Label
  type : Text
deriving DecidableEq, Inhabited, Repr

/-- A method body with what it needs from the declaration. -/
structure Method where
  owner : Text
  name : Text
  desc : Text
  access : Access
  params : List Text
  result : Text
  locals : Array Local := #[]
  traps : List Trap := []
  /-- Every statement made so far, linked or not. -/
  stmts : Array Stmt := #[]
  /-- The linked statements in program order. -/
  order : Array StmtId := #[]
  /-- For each label the statement that places it. -/
  placed : Array (Option StmtId) := #[]
  /-- How the statements are linked, when the body alone does not tell. -/
  chain : Option Chain := none
deriving Inhabited

/-- One round of looking for labels with joins: the present label and those found. -/
def phiStep : Label × List Label → Action → Label × List Label
  | (_, found), .label l => (l, found)
  | (current, found), .phi .. =>
    if current = .nowhere ∨ found.head? = some current then (current, found)
    else (current, current :: found)
  | state, _ => state

namespace Method

def ofRef (ref : MethodRef) (access : Access) : Method :=
  { owner := ref.owner, name := ref.name, desc := ref.desc, access, params := ref.proto.params
    result := ref.proto.result }

def isStatic (m : Method) : Bool := m.access.isStatic

/-- Whether the method initializes instances. -/
def isConstructor (m : Method) : Bool := m.name == "<init>"

def title (m : Method) : Text := m.name ++ m.desc

def newLocal (m : Method) (type : Ty) : LocalId × Method :=
  (m.locals.size, { m with locals := m.locals.push { type } })

def local_ (m : Method) (id : LocalId) : Local := m.locals.getD id { type := .top }

def localType (m : Method) (id : LocalId) : Ty := (m.local_ id).type

def setLocalType (m : Method) (id : LocalId) (type : Ty) : Method :=
  { m with locals := m.locals.modify id fun l => { l with type } }

def newLabel (m : Method) : Label × Method :=
  (.number m.placed.size, { m with placed := m.placed.push none })

def placedAt? (m : Method) : Label → Option StmtId
  | .nowhere => none
  | .number index => m.placed[index]?.join

def stmt (m : Method) (id : StmtId) : Stmt := m.stmts.getD id { action := .nop }

def action (m : Method) (id : StmtId) : Action := (m.stmt id).action

/-- Changes what a statement does. -/
def setAction (m : Method) (id : StmtId) (action : Action) : Method :=
  { m with stmts := m.stmts.modify id fun s => { s with action } }

/-- Makes a statement that is not linked. -/
def newStmt (m : Method) (s : Stmt) : StmtId × Method :=
  (m.stmts.size, { m with stmts := m.stmts.push s })

/-- The linked statements in program order, with their numbers. -/
def body (m : Method) : List (StmtId × Stmt) := m.order.toList.map fun id => (id, m.stmt id)

/-- What the linked statements do, in program order. -/
def actions (m : Method) : List Action := m.order.toList.map m.action

def isLinked (m : Method) (id : StmtId) : Bool := m.order.contains id

def notePlace (m : Method) (id : StmtId) : Method :=
  match m.action id with
  | .label (.number index) => { m with placed := m.placed.setIfInBounds index (some id) }
  | _ => m

/-- Edits the chain; the body becomes what is found from its beginning. -/
def editChain (m : Method) (edit : Chain → Chain) : Method :=
  let chain := edit (m.chain.getD (.ofList m.order.toList))
  { m with chain := some chain, order := chain.toList.toArray }

/-- Links a statement at the end; it is not linked yet. -/
def append (m : Method) (id : StmtId) : Method :=
  let m :=
    if m.chain.isNone then { m with order := m.order.push id } else m.editChain (·.append id)
  m.notePlace id

/-- Links any statement at the end, also one that is linked already. -/
def relink (m : Method) (id : StmtId) : Method :=
  if m.isLinked id then (m.editChain (·.append id)).notePlace id else m.append id

/-- Links a statement at a position of the body. -/
def insertAt (m : Method) (position : Nat) (id : StmtId) : Method :=
  { m with order := m.order.insertIdxIfInBounds position id }

/-- Links a statement, which is not linked yet, right before another. -/
def insertBefore (m : Method) (place id : StmtId) : Method :=
  let m :=
    match m.chain, m.order.idxOf? place with
    | none, some position => m.insertAt position id
    | _, _ => m.editChain (·.insertBefore place id)
  m.notePlace id

/-- Links a statement, which is not linked yet, right after another. -/
def insertAfter (m : Method) (place id : StmtId) : Method :=
  let m :=
    match m.chain, m.order.idxOf? place with
    | none, some position => m.insertAt (position + 1) id
    | _, _ => m.editChain (·.insertAfter place id)
  m.notePlace id

/-- Forgets that a statement places a label, unless another statement has placed it since. -/
def forgetPlace (m : Method) (id : StmtId) : Method :=
  match m.action id with
  | .label (.number index) =>
    if m.placed[index]?.join = some id then
      { m with placed := m.placed.setIfInBounds index none }
    else m
  | _ => m

/-- Takes a statement off the chain. -/
def unchain (m : Method) (chain : Chain) (id : StmtId) : Method :=
  if (chain.link id).linked then (m.editChain (·.remove id)).forgetPlace id else m

/-- Unlinks every statement of the body of which a test holds. Labels taken out this way are no
longer placed. -/
def removeWhere (m : Method) (test : StmtId → Bool) : Method :=
  let gone := m.order.filter test
  if m.chain.isNone then
    gone.foldl forgetPlace { m with order := m.order.filter fun id => !test id }
  else
    gone.foldl (fun m id => m.unchain (m.chain.getD {}) id) m

def remove (m : Method) (id : StmtId) : Method :=
  match m.chain with
  | none => m.removeWhere (· == id)
  | some chain => m.unchain chain id

def last? (m : Method) : Option StmtId :=
  match m.chain with
  | none => m.order.back?
  | some chain => chain.last

/-- The statements from one on, itself included. -/
def onward (m : Method) (id : StmtId) : List StmtId :=
  match m.chain with
  | none => m.order.toList.dropWhile (· != id)
  | some chain => chain.forward (some id)

/-- The statements in front of one, the nearest first. -/
def inFront (m : Method) (id : StmtId) : List StmtId :=
  match m.chain with
  | none => (m.order.toList.takeWhile (· != id)).reverse
  | some chain => (chain.backward (some id)).tail

/-- Whether a statement that is found in the body does not count as linked. -/
def isDetached (m : Method) (id : StmtId) : Bool :=
  match m.chain with
  | none => false
  | some chain => !(chain.link id).linked

/-- Puts a statement in the place of another. -/
def replace (m : Method) (old new : StmtId) : Method := (m.insertBefore old new).remove old

/-- Makes a statement and links it at the end. -/
def add (m : Method) (s : Stmt) : Method :=
  let (id, m) := m.newStmt s
  m.append id

/-- Makes a statement and links it right before another. -/
def addBefore (m : Method) (place : StmtId) (s : Stmt) : Method :=
  let (id, m) := m.newStmt s
  m.insertBefore place id

/-- Makes a statement and links it right after another. -/
def addAfter (m : Method) (place : StmtId) (s : Stmt) : Method :=
  let (id, m) := m.newStmt s
  m.insertAfter place id

/-- Changes what every linked statement does. -/
def mapActions (m : Method) (change : Action → Action) : Method :=
  m.order.foldl (fun m id => m.setAction id (change (m.action id))) m

/-- How often each local is read outside joins, and how often in joins. -/
def useCounts (m : Method) : Array Nat × Array Nat :=
  let none := Array.replicate m.locals.size 0
  let count (counts : Array Nat) (ids : List LocalId) : Array Nat :=
    ids.foldl (fun counts id => counts.modify id (· + 1)) counts
  m.actions.foldl (fun (uses, phiUses) action =>
    (count uses action.uses, count phiUses (action.phiArgs.map PhiArg.value))) (none, none)

def defs (m : Method) : Array (Option StmtId) :=
  m.body.foldl (fun defs (id, s) =>
    match s.action.defines? with
    | some target => defs.setIfInBounds target (some id)
    | none => defs) (Array.replicate m.locals.size none)

def labelRefs (m : Method) : Array Nat :=
  let count (counts : Array Nat) : Label → Array Nat
    | .nowhere => counts
    | .number index => counts.modify index (· + 1)
  let mentioned :=
    m.actions.flatMap (fun action => action.targets ++ action.phiArgs.map PhiArg.pred) ++
      m.traps.flatMap fun t => [t.start, t.stop, t.handler]
  mentioned.foldl count (Array.replicate m.placed.size 0)

/-- The labels whose blocks begin with joins, each once for every run of joins. -/
def phiLabels (m : Method) : List Label := (m.actions.foldl phiStep (.nowhere, [])).2.reverse

/-- The label of the block each statement of a list belongs to: the last label before it, unless a
block has ended since. -/
def blockLabelsFrom (current : Label) : List Action → List Label
  | [] => []
  | action :: rest =>
    let here := action.label?.getD current
    here :: blockLabelsFrom (if action.endsBlock then .nowhere else here) rest

/-- The label of the block a statement belongs to, by looking back from it. -/
def blockLabelOf (m : Method) (id : StmtId) : Label :=
  match (m.action id).label? with
  | some l => l
  | none =>
    let near := m.inFront id |>.map m.action
    match near.find? fun action => action.isLabel || action.endsBlock with
    | some action => action.label?.getD .nowhere
    | none => .nowhere

/-- The label of the block each linked statement belongs to. -/
def blockLabels (m : Method) : List Label :=
  if m.chain.isNone then blockLabelsFrom .nowhere m.actions
  else m.order.toList.map m.blockLabelOf

/-- Replaces every read of a local outside joins. -/
def replaceLocal (m : Method) (target : LocalId) (replacement : Expr) : Method :=
  m.mapActions (Action.replaceLocal target replacement)

end Method

/-- The type of the value an expression gives. Reading a local gives its current type; reading an
array element whose type is not resolved looks at the type of the array. -/
def Method.exprType (m : Method) : Expr → Ty
  | .node head args =>
    match head with
    | .missing => { kind := .bottom }
    | .const type _ => type
    | .read id => m.localType id
    | .binary op type => if op = .cmp ∨ op = .cmpl ∨ op = .cmpg then .int else type
    | .unary op type target =>
      match op with
      | .convert => { kind := target }
      | .toByte => { kind := .int, desc := "B" }
      | .toChar => { kind := .int, desc := "C" }
      | .toShort => { kind := .int, desc := "S" }
      | _ => type
    | .element type =>
      if type.isConcrete && !type.isNull then type
      else
        match args with
        | [] => type
        | array :: _ =>
          let elem := elementDesc (m.exprType array).desc
          if elem.isEmpty then type
          else
            let t := Ty.ofDesc elem
            if t.kind.meets type.kind then t else type
    | .arrayLength => .int
    | .instanceOf _ => { kind := .int, desc := "Z" }
    | .cast desc | .new desc | .construct desc _ | .newArray desc | .arrayLiteral desc
    | .multiArray desc => .refTo desc
    | .field ref _ => .ofDesc ref.type
    | .invoke _ method =>
      if method.proto.result = "V" then { kind := .bottom } else .ofDesc method.proto.result
    | .caught type _ => type
    | .this => .refTo m.owner
    | .param index => .ofDesc (m.params.getD index ∅)

end DexLift.Ir
