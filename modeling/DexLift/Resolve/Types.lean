import DexLift.Hierarchy
import DexLift.Ir.Operand

/-!
# Types of locals

Every local gets one resolved type. First the kind: definitions and readers each
leave some kinds possible, and locals joined with one another share what is
possible. Then the descriptor of a reference: it comes from the definition, a
join having the least common superclass of what it joins. A join that only the
root class is left for takes the most specific type its readers want. Last,
constants and array reads are resolved from where they stand.
-/

namespace DexLift.Ir

/-- What is known about the locals of a method. -/
structure Typing where
  /-- The local that speaks for each group of locals that share a kind. -/
  group : Array LocalId
  /-- The possible kinds, by speaker. -/
  kinds : Array Kind
  /-- Descriptors of references by local; empty for null. -/
  descs : Array Text
  /-- Whether a descriptor is a merge or a guess and not declared. -/
  guessed : Array Bool
  /-- The types the locals came with. -/
  declared : Array Ty

namespace Typing

def kindOf (t : Typing) (id : LocalId) : Kind := t.kinds.getD (t.group.getD id id) .bottom

def descOf (t : Typing) (id : LocalId) : Text := t.descs.getD id ∅

def isGuess (t : Typing) (id : LocalId) : Bool := t.guessed.getD id false

def join (t : Typing) (first second : LocalId) : Typing :=
  let a := t.group.getD first first
  let b := t.group.getD second second
  if a = b then t
  else
    { t with
      group := t.group.map fun speaker => if speaker = b then a else speaker
      kinds := t.kinds.modify a fun kind => kind.inter (t.kinds.getD b .bottom) }

/-- Leaves only some kinds for a local. -/
def narrow (t : Typing) (id : LocalId) (kind : Kind) : Typing :=
  { t with kinds := t.kinds.modify (t.group.getD id id) fun old => old.inter kind }

def narrowRead (t : Typing) (e : Expr) (kind : Kind) : Typing :=
  match e.local? with
  | some id => t.narrow id kind
  | none => t

/-- What a statement says about groups. -/
def joinBy (t : Typing) : Action → Typing
  | .phi target args => args.foldl (fun t a => t.join target a.value) t
  | .assign target (.node (.read source) _) => t.join target source
  | _ => t

/-- What is known before anything is concluded. -/
def ofMethod (m : Method) : Typing :=
  let types := m.locals.map Local.type
  let start : Typing :=
    { group := Array.range m.locals.size
      kinds := types.map fun t => if t.kind = .bottom then .top else t.kind
      descs := types.map fun t => if t.kind = .ref then t.desc else ∅
      guessed := Array.replicate m.locals.size false
      declared := types }
  m.actions.foldl joinBy start

/-- The kinds an expression may give. -/
def exprKind (t : Typing) (m : Method) (e : Expr) : Kind :=
  match e.local? with
  | some id => t.kindOf id
  | none =>
    let kind := (m.exprType e).kind
    if kind = .bottom then .top else kind

/-- What one statement leaves possible. -/
def narrowBy (m : Method) (t : Typing) (action : Action) : Typing :=
  let t := (m.operands action).foldl (fun t o =>
    if o.expected.kind = .bottom then t else t.narrowRead o.expr o.expected.kind) t
  match action with
  | .assign target value | .identity target value => t.narrow target (t.exprKind m value)
  | .branch _ left (some right) _ =>
    let kind := (t.exprKind m left).inter (t.exprKind m right)
    (t.narrowRead left kind).narrowRead right kind
  | _ => t

/-- Goes over the statements until nothing more is ruled out. A local that nothing is left for is a
conflict. -/
def solveKinds (m : Method) : (fuel : Nat) → Typing → Outcome Typing
  | 0, t => .ok t
  | fuel + 1, t =>
    let next := m.actions.foldl (narrowBy m) t
    match (List.range m.locals.size).find? fun id => next.kindOf id == .bottom with
    | some id => Outcome.failWith .typeConflict ("local a" ++ Text.ofNat id)
    | none => if next.kinds = t.kinds then .ok next else solveKinds m fuel next

/-- Rounds that suffice to solve the kinds: each rules out a kind of some local. -/
def kindRounds (m : Method) : Nat := 5 * m.locals.size + 2

/-- The first kind of a set, in the order of preference. -/
def pick (kind : Kind) : Kind :=
  ([Kind.int, .float, .long, .double, .ref].find? fun k => kind.meets k).getD .int

def settle (t : Typing) : Typing := { t with kinds := t.kinds.map pick }

/-- The descriptor of a reference, and whether it is a guess. Null has the empty one. -/
def refDesc (t : Typing) (m : Method) : Expr → Text × Bool
  | .node head args =>
    match head with
    | .read id => (t.descOf id, t.isGuess id)
    | .const _ (.string _) => (Ty.string.desc, false)
    | .const _ (.class _) => (Ty.class_.desc, false)
    | .const _ (.number _) => (∅, false)
    | .element _ =>
      match args with
      | [] => (objectDesc, true)
      | array :: _ =>
        let element := elementDesc (t.refDesc m array).1
        if Kind.ofDesc element = .ref then (element, false) else (objectDesc, true)
    | _ =>
      let desc := (m.exprType (.node head args)).desc
      if Kind.ofDesc desc = .ref then (desc, false) else (objectDesc, true)

/-- The least common superclass of the operands of a join that are not null. -/
def mergeArgs (t : Typing) (h : Option Hierarchy) (args : List PhiArg) : Outcome Text :=
  args.foldlM (fun merged a =>
    let desc := t.descOf a.value
    if desc.isEmpty then .ok merged
    else if merged.isEmpty then .ok desc
    else Hierarchy.merge h merged desc) ∅

/-- What one statement says about descriptors. -/
def describeBy (m : Method) (h : Option Hierarchy) (t : Typing) (action : Action) :
    Outcome Typing := do
  let learn (target : LocalId) (desc : Text) (guess : Bool) : Typing :=
    { t with
      descs := t.descs.setIfInBounds target desc
      guessed := t.guessed.setIfInBounds target guess }
  match action with
  | .phi target args =>
    if t.kindOf target != .ref then return t
    return learn target (← t.mergeArgs h args) true
  | .assign target value | .identity target value =>
    if t.kindOf target != .ref then return t
    let (desc, guess) := t.refDesc m value
    return learn target desc guess
  | _ => return t

/-- Goes over the statements until no descriptor changes, at most `fuel` times. -/
def solveDescs (m : Method) (h : Option Hierarchy) : (fuel : Nat) → Typing → Outcome Typing
  | 0, t => .ok t
  | fuel + 1, t => do
    let next ← m.actions.foldlM (describeBy m h) t
    if next.descs = t.descs ∧ next.guessed = t.guessed then return next
    solveDescs m h fuel next

/-- The descriptors that readers want of each local, other than the root. -/
def wanted (m : Method) : Array (List Text) :=
  (m.actions.flatMap m.operands).foldl (fun (table : Array (List Text)) o =>
    match o.expr.local? with
    | some id =>
      let want := o.expected
      if want.kind = .ref ∧ !want.desc.isEmpty ∧ want.desc ≠ objectDesc then
        table.modify id (· ++ [want.desc])
      else table
    | none => table) (Array.replicate m.locals.size [])

/-- The first descriptor that can be used for all of them. -/
def mostSpecific? (h : Option Hierarchy) (all : List Text) : List Text → Outcome (Option Text)
  | [] => .ok none
  | first :: rest => do
    let rec fits : List Text → Outcome Bool
      | [] => .ok true
      | want :: wants => do
        if ← Hierarchy.isAssignable h first want then fits wants else return false
    if ← fits all then return some first
    mostSpecific? h all rest

/-- Whether no operand of the join that defines a local is declared to be of the root class. -/
def mayRefine (t : Typing) (m : Method) (defs : Array (Option StmtId)) (id : LocalId) : Bool :=
  match (defs.getD id none).map m.action with
  | some (.phi _ args) => args.all fun a => t.descOf a.value != objectDesc || t.isGuess a.value
  | _ => true

/-- Gives locals that the root class was guessed for what their readers want. -/
def refine (m : Method) (h : Option Hierarchy) (t : Typing) : Outcome Typing := do
  let wants := wanted m
  let defs := m.defs
  (List.range m.locals.size).foldlM (fun t id => do
    if t.isGuess id && t.descOf id == objectDesc && t.kindOf id == .ref &&
        t.mayRefine m defs id then
      let all := wants.getD id []
      match ← mostSpecific? h all all with
      | some desc => return { t with descs := t.descs.setIfInBounds id desc }
      | none => return t
    else return t) t

/-- Writes what is known into the locals. -/
def apply (t : Typing) (m : Method) : Method :=
  let typeOf (id : LocalId) : Ty :=
    let kind := t.kindOf id
    let declared := t.declared.getD id .top
    if kind = .ref then .refTo (t.descOf id)
    else if kind = .int ∧ declared.kind = .int then { kind, desc := declared.desc }
    else { kind }
  (List.range m.locals.size).foldl (fun m id => m.setLocalType id (typeOf id)) m

end Typing

def resolvedKind (type want : Ty) : Kind :=
  let kind := type.kind.inter want.kind
  Typing.pick (if kind = .bottom then type.kind else kind)

def Method.resolveExpr (m : Method) (e : Expr) (want : Ty) : Expr :=
  match e with
  | .node (.const type (.number bits)) args =>
    if type.isConcrete then e
    else .node (.const { kind := resolvedKind type want } (.number bits)) args
  | .node (.element type) args =>
    let isKnown (t : Ty) : Bool := t.isConcrete && !t.isNull
    let found := m.exprType e
    if isKnown type then e
    else if isKnown found then .node (.element found) args
    else
      let kind := resolvedKind type want
      let resolved : Ty :=
        if kind != .ref then { kind }
        else if want.kind = .ref ∧ !want.desc.isEmpty then .refTo want.desc
        else .object
      .node (.element resolved) args
  | _ => e

/-- Resolves a constant that a branch compares from the other side. -/
def Method.resolveComparison (m : Method) (action : Action) : Action :=
  match action with
  | .branch cond left (some right) target =>
    if left.isConst then .branch cond (m.resolveExpr left (m.exprType right)) (some right) target
    else if right.isConst then
      .branch cond left (some (m.resolveExpr right (m.exprType left))) target
    else action
  | _ => action

/-- Resolves every constant and array read of a statement. -/
def Method.resolveAction (m : Method) (action : Action) : Action :=
  match m.mapOperands m.resolveExpr (m.resolveComparison action) with
  | .assign target value => .assign target (m.resolveExpr value (m.localType target))
  | action => action

/-- The method after the first pass, and what the second pass finds before guesses are refined. -/
def Method.described (m : Method) (h : Option Hierarchy) : Outcome (Method × Typing) := do
  let t ← Typing.solveKinds m (Typing.kindRounds m) (.ofMethod m)
  let t ← Typing.solveDescs m h (m.locals.size + 2) t
  let m := t.apply m
  let t ← Typing.solveKinds m (Typing.kindRounds m) t
  let t ← Typing.solveDescs m h (m.locals.size + 2) t.settle
  return (m, t)

/-- Gives every local, constant and array read a resolved type. -/
def Method.inferTypes (m : Method) (h : Option Hierarchy) : Outcome Method := do
  let (m, t) ← m.described h
  let m := (← Typing.refine m h t).apply m
  return m.mapActions m.resolveAction

end DexLift.Ir
