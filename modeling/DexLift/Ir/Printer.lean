import DexLift.Decimal
import DexLift.Ir.Method
import DexLift.Text.Quoted

/-!
# Method bodies as text

Labels are shown by new numbers: first those placed in the body, in program
order, then any other in the order in which the text mentions them.
-/

namespace DexLift.Ir

def localName (id : LocalId) : Text := "a" ++ Text.ofNat id

def constText (type : Ty) : Constant → Text
  | .string text => text.quote
  | .class desc => desc ++ ".class"
  | .number bits =>
    if type.kind = .ref then "null"
    else if type.kind = .float then Decimal.general .single bits.toUInt32.toNat ++ "F"
    else if type.kind = .double then Decimal.general .double bits.toNat ++ "D"
    else if type.kind = .long ∨ type.kind = .wide then Text.ofInt bits.toInt64.toInt ++ "L"
    else Text.ofInt bits.toUInt32.toInt32.toInt

/-- A node whose operands are already texts. -/
def headText (head : Head) (args : List Text) : Text :=
  let all := Text.join ", " args
  let first := args.getD 0 "<nil>"
  let second := args.getD 1 "<nil>"
  match head with
  | .missing => "<nil>"
  | .const type value => constText type value
  | .read id => localName id
  | .binary op _ => "(" ++ first ++ " " ++ op.text ++ " " ++ second ++ ")"
  | .unary op _ target =>
    match op with
    | .convert => "(" ++ (Ty.descriptor { kind := target }) ++ ")" ++ first
    | .toByte | .toChar | .toShort => op.text ++ "(" ++ first ++ ")"
    | _ => op.text ++ first
  | .field ref isStatic => (if isStatic then ref.owner else first) ++ "." ++ ref.name
  | .element _ => first ++ "[" ++ second ++ "]"
  | .arrayLength => first ++ ".length"
  | .instanceOf desc => first ++ " instanceof " ++ desc
  | .cast desc => "((" ++ desc ++ ")" ++ first ++ ")"
  | .invoke kind method => kind.text ++ " " ++ method.text ++ "(" ++ all ++ ")"
  | .new desc => "new " ++ desc
  | .construct desc _ => "new " ++ desc ++ "(" ++ all ++ ")"
  | .newArray desc => "new " ++ elementDesc desc ++ "[" ++ first ++ "]"
  | .arrayLiteral desc => desc ++ "\x7b" ++ all ++ "\x7d"
  | .multiArray desc =>
    "new " ++ (⟨desc.bytes.dropWhile (· == Descriptor.bracket)⟩ : Text) ++
      Text.concat (args.map fun a => "[" ++ a ++ "]")
  | .caught _ desc => if desc.isEmpty then "@caught" else "@caught " ++ desc
  | .this => "@this"
  | .param index => "@param" ++ Text.ofNat index

namespace Expr

mutual

def text : Expr → Text
  | node head args => headText head (texts args)

def texts : List Expr → List Text
  | [] => []
  | head :: rest => text head :: texts rest

end

end Expr

/-- The labels a statement mentions, in the order its text does. -/
def Action.mentions : Action → List Label
  | .label l => [l]
  | .phi _ args => args.map PhiArg.pred
  | .branch _ _ _ target => [target]
  | .goto target => [target]
  | .switch _ _ targets default => targets ++ [default]
  | _ => []

structure LabelNames where
  known : List Label

namespace LabelNames

/-- Adds labels that have no name yet. -/
def learn (known : List Label) : List Label → List Label
  | [] => known
  | l :: rest =>
    if l = .nowhere ∨ known.contains l then learn known rest else learn (known ++ [l]) rest

def ofMethod (m : Method) : LabelNames :=
  let placed := m.actions.filterMap Action.label?
  let mentioned := m.actions.flatMap Action.mentions
  let trapped := m.traps.flatMap fun t => [t.start, t.stop, t.handler]
  ⟨learn (learn (learn [] placed) mentioned) trapped⟩

def name (names : LabelNames) (l : Label) : Text :=
  if l = .nowhere then "L?" else "L" ++ Text.ofNat (names.known.idxOf l)

end LabelNames

def PhiArg.text (names : LabelNames) (a : PhiArg) : Text :=
  names.name a.pred ++ (if a.exceptional then "!" else "") ++ ":" ++ localName a.value

def Action.text (names : LabelNames) : Action → Text
  | .label l => names.name l ++ ":"
  | .assign target value => localName target ++ " := " ++ value.text
  | .identity target value => localName target ++ " := " ++ value.text
  | .phi target args =>
    localName target ++ " := φ(" ++ Text.join ", " (args.map (PhiArg.text names)) ++ ")"
  | .store place value => place.text ++ " = " ++ value.text
  | .fillArray array data =>
    "fill " ++ array.text ++ " \x7b" ++
      Text.join ", " (data.elements.map fun e => Text.ofInt e.toInt) ++ "\x7d"
  | .branch cond left right target =>
    "if " ++ left.text ++ " " ++ cond.text ++ " " ++
      ((right.map Expr.text).getD "0") ++ " goto " ++ names.name target
  | .goto target => "goto " ++ names.name target
  | .switch value keys targets default =>
    let cases := (keys.zip targets).map fun (key, target) =>
      Text.ofInt key.toInt ++ ": " ++ names.name target
    "switch " ++ value.text ++ " \x7b" ++
      Text.join ", " (cases ++ ["default: " ++ names.name default]) ++ "\x7d"
  | .return none => "return"
  | .return (some value) => "return " ++ value.text
  | .throw value => "throw " ++ value.text
  | .nop => "nop"
  | .monitorEnter value => "monitor-enter " ++ value.text
  | .monitorExit value => "monitor-exit " ++ value.text
  | .void value => value.text

/-- A line of the body: labels stand at the margin, other statements are indented. -/
def Action.line (names : LabelNames) (action : Action) : Text :=
  (if action.isLabel then "" else "  ") ++ action.text names ++ "\n"

def Trap.text (names : LabelNames) (t : Trap) : Text :=
  let type : Text := if t.type.isEmpty then "*" else t.type
  "  .catch " ++ type ++ " " ++ names.name t.start ++ ".." ++
    names.name t.stop ++ " -> " ++ names.name t.handler ++ "\n"

def Method.text (m : Method) : Text :=
  let names := LabelNames.ofMethod m
  "method " ++ m.owner ++ "->" ++ m.title ++ "\n" ++
    Text.concat (m.actions.map (Action.line names)) ++
    Text.concat (m.traps.map (Trap.text names))

end DexLift.Ir
