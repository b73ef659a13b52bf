import DexLift.Ir.Kind

/-!
# Expressions

An expression is a tree: a head that says what the node does, and its operands.
What follows holds for all heads alike: listing nodes, changing nodes bottom-up,
reading locals, and the questions whether evaluating can throw or has effects.
-/

namespace DexLift.Ir

/-- A local variable of a method, by number. -/
abbrev LocalId := Nat

/-- Arithmetic, comparison and conversion. -/
inductive Op where
  | add | sub | mul | div | rem | and | or | xor | shl | shr | ushr
  /-- Compares floating-point values; a NaN counts as less. -/
  | cmpl
  /-- Compares floating-point values; a NaN counts as greater. -/
  | cmpg
  /-- Compares longs. -/
  | cmp
  | neg | not
  /-- Converts to another kind of number. -/
  | convert
  | toByte | toChar | toShort
deriving DecidableEq, Inhabited, Repr

/-- All operators, in their standard order. -/
def Op.all : List Op :=
  [.add, .sub, .mul, .div, .rem, .and, .or, .xor, .shl, .shr, .ushr, .cmpl, .cmpg, .cmp, .neg, .not,
   .convert, .toByte, .toChar, .toShort]

def Op.text : Op → String
  | add => "+" | sub => "-" | mul => "*" | div => "/" | rem => "%" | and => "&" | or => "|"
  | xor => "^" | shl => "<<" | shr => ">>" | ushr => ">>>" | cmpl => "cmpl" | cmpg => "cmpg"
  | cmp => "cmp" | neg => "-" | not => "~" | convert => "conv" | toByte => "i2b" | toChar => "i2c"
  | toShort => "i2s"

/-- How a call finds its method. -/
inductive InvokeKind where
  | virtual | super | direct | static | interface
deriving DecidableEq, Inhabited, Repr

/-- All kinds of call, in their standard order. -/
def InvokeKind.all : List InvokeKind := [.virtual, .super, .direct, .static, .interface]

def InvokeKind.text : InvokeKind → String
  | virtual => "virtual" | super => "super" | direct => "direct" | static => "static"
  | interface => "interface"

inductive Constant where
  | number (bits : UInt64)
  | string (text : Text)
  | class (desc : Text)
deriving DecidableEq, Inhabited, Repr

/-- What a node of an expression does with its operands. -/
inductive Head where
  /-- An operand that was left out. -/
  | missing
  | const (type : Ty) (value : Constant)
  | read (id : LocalId)
  /-- The type is that of the operands. -/
  | binary (op : Op) (type : Ty)
  /-- The type is that of the operand; `target` is the kind a conversion leads to. -/
  | unary (op : Op) (type : Ty) (target : Kind)
  /-- A field; the receiver is the operand unless the field is static. -/
  | field (ref : FieldRef) (isStatic : Bool)
  /-- An array element; operands are the array and the index. -/
  | element (type : Ty)
  | arrayLength
  | instanceOf (desc : Text)
  | cast (desc : Text)
  /-- A call; the receiver comes first unless the call is static. -/
  | invoke (kind : InvokeKind) (method : MethodRef)
  /-- An object that no constructor has run on yet. -/
  | new (desc : Text)
  /-- An object together with the constructor call. -/
  | construct (desc : Text) (method : MethodRef)
  | newArray (desc : Text)
  /-- An array and its elements. -/
  | arrayLiteral (desc : Text)
  /-- An array of arrays; the operands are the dimensions. -/
  | multiArray (desc : Text)
  /-- The exception a handler caught. -/
  | caught (type : Ty) (desc : Text)
  | this
  | param (index : Nat)
deriving DecidableEq, Inhabited, Repr

def Head.word : Head → String
  | missing => "missing" | const .. => "const" | read .. => "local" | binary .. => "binary"
  | unary .. => "unary" | field .. => "field" | element .. => "aget" | arrayLength => "alen"
  | instanceOf .. => "instanceof" | cast .. => "cast" | invoke .. => "invoke" | new .. => "new"
  | construct .. => "new-init" | newArray .. => "new-array" | arrayLiteral .. => "filled-array"
  | multiArray .. => "multi-array" | caught .. => "caught" | this => "this" | param .. => "param"

/-- A division or remainder of integers. -/
def Head.isIntDivision : Head → Bool
  | binary op type =>
    (op == .div || op == .rem) && type.kind.meets (.int ||| .long) &&
      !type.kind.meets (.float ||| .double)
  | _ => false

/-- Whether the node itself can throw, its operands not counted. -/
def Head.throws : Head → Bool
  | missing | const .. | read .. | unary .. | instanceOf .. | caught .. | this | param .. => false
  | binary op type => (binary op type).isIntDivision
  | _ => true

/-- Whether the node itself does more than give a value or throw. Reading a static field may run the
initializer of its class. -/
def Head.hasEffects : Head → Bool
  | invoke .. | construct .. => true
  | field _ isStatic => isStatic
  | _ => false

/-- An expression: a head and its operands. -/
inductive Expr where
  | node (head : Head) (args : List Expr)
deriving Inhabited, Repr

namespace Expr

def head : Expr → Head
  | node head _ => head

def args : Expr → List Expr
  | node _ args => args

mutual

/-- Whether two expressions are the same tree. -/
def beq : Expr → Expr → Bool
  | node h as, node g bs => h == g && beqs as bs

/-- Whether two lists hold the same trees. -/
def beqs : List Expr → List Expr → Bool
  | [], [] => true
  | a :: as, b :: bs => beq a b && beqs as bs
  | _, _ => false

end

instance : BEq Expr := ⟨beq⟩

def leaf (head : Head) : Expr := node head []

def missing : Expr := leaf .missing

/-- Whether the operand was left out. -/
def isMissing (e : Expr) : Bool := e.head == .missing

def arg (e : Expr) (i : Nat) : Expr := e.args.getD i missing

def number (type : Ty) (bits : UInt64) : Expr := leaf (.const type (.number bits))

def ofInt (n : Int32) : Expr := number .int n.toInt64.toUInt64

def ofString (text : Text) : Expr := leaf (.const .string (.string text))

def ofClass (desc : Text) : Expr := leaf (.const .class_ (.class desc))

def null : Expr := number .null 0

def read (id : LocalId) : Expr := leaf (.read id)

/-- An operation on two operands. -/
def binary (op : Op) (type : Ty) (left right : Expr) : Expr := node (.binary op type) [left, right]

def unary (op : Op) (type : Ty) (operand : Expr) : Expr := node (.unary op type .bottom) [operand]

def conversion (source target : Kind) (operand : Expr) : Expr :=
  node (.unary .convert { kind := source } target) [operand]

mutual

/-- Every node of the tree, parents before their operands. -/
def nodes : Expr → List Expr
  | node .missing _ => []
  | node head args => node head args :: nodesOf args

/-- Every node of several trees. -/
def nodesOf : List Expr → List Expr
  | [] => []
  | head :: rest => nodes head ++ nodesOf rest

end

mutual

/-- Replaces every node, operands first, by what `change` makes of it. -/
def mapNodes (change : Expr → Expr) : Expr → Expr
  | node .missing args => node .missing args
  | node head args => change (node head (mapNodesOf change args))

def mapNodesOf (change : Expr → Expr) : List Expr → List Expr
  | [] => []
  | head :: rest => mapNodes change head :: mapNodesOf change rest

end

/-- The local a node reads, if it is such a node. -/
def local? (e : Expr) : Option LocalId :=
  match e.head with
  | .read id => some id
  | _ => none

/-- The locals read, in order, as often as they are read. -/
def uses (e : Expr) : List LocalId := e.nodes.filterMap local?

def canThrow (e : Expr) : Bool := e.nodes.any fun n => n.head.throws

/-- Whether evaluating does more than give a value or throw. -/
def hasEffects (e : Expr) : Bool := e.nodes.any fun n => n.head.hasEffects

/-- Whether the value can go uncomputed when nobody needs it. -/
def isRemovable (e : Expr) : Bool := !e.canThrow && !e.hasEffects

def bits? (e : Expr) : Option UInt64 :=
  match e.head with
  | .const _ (.number bits) => some bits
  | _ => none

/-- Whether the expression is a numeric constant. -/
def isNumber (e : Expr) : Bool := e.bits?.isSome

/-- Whether the expression is a constant of any sort. -/
def isConst (e : Expr) : Bool :=
  match e.head with
  | .const .. => true
  | _ => false

/-- Whether the expression is a numeric constant without a set bit. -/
def isZero (e : Expr) : Bool := e.bits? == some 0

/-- The type a constant, an operator, an element read or a caught exception carries. -/
def ownType (e : Expr) : Ty :=
  match e.head with
  | .const type _ => type
  | .binary _ type => type
  | .unary _ type _ => type
  | .element type => type
  | .caught type _ => type
  | _ => { kind := .bottom }

/-- Whether the expression is the null constant. -/
def isNull (e : Expr) : Bool := e.isNumber && e.ownType.kind == .ref

def int32 (e : Expr) : Int32 := (e.bits?.getD 0).toUInt32.toInt32

/-- The expression with every read of a local replaced. -/
def replaceLocal (target : LocalId) (replacement : Expr) : Expr → Expr :=
  mapNodes fun e => if e.local? == some target then replacement else e

end Expr

end DexLift.Ir
