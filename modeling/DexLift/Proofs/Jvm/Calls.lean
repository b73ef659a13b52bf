import DexLift.Proofs.Jvm.Decoding
import DexLift.Proofs.Jvm.Pool

/-!
# Calls of the assembler and what code shows of them

A method is assembled by a list of calls, some of which append an instruction. The
forms an instruction can have are listed once, for each call: constants are built in,
operands or in the pool, slots are built in or operands, jumps are short or long, and
a switch has a table or a list of keys. An item is for a call when it is read back in
one of these forms wherever it ends up.
-/

namespace DexLift.Jvm

/-- A call of the assembler. Slots have 16 bits. -/
inductive Call where
  | newLabel
  | mark (l : CodeLabel)
  | setInitialFrame (locals : List VType)
  | frame (f : Frame)
  | line (n : Int)
  | catch_ (c : Catcher)
  | op (o : Opcode)
  | int (n : Int32)
  | long (bits : UInt64)
  | float (bits : UInt32)
  | double (bits : UInt64)
  | string (text : Text)
  | classConst (name : Text)
  | null
  | load (desc : Text) (slot : UInt16)
  | store (desc : Text) (slot : UInt16)
  | increment (slot : UInt16) (n : Int32)
  | return_ (desc : Text)
  | arrayLoad (element : Text)
  | arrayStore (element : Text)
  | field (o : Opcode) (owner name desc : Text)
  | invoke (o : Opcode) (owner name desc : Text) (ofInterface : Bool)
  | typeOp (o : Opcode) (name : Text)
  | newArray (element : Text)
  | multiArray (desc : Text) (dims : Int)
  | jump (o : Opcode) (target : CodeLabel)
  | tableSwitch (low : Int32) (targets : List CodeLabel) (default : CodeLabel)
  | lookupSwitch (keys : List Int32) (targets : List CodeLabel) (default : CodeLabel)
  | switch (keys : List Int32) (targets : List CodeLabel) (default : CodeLabel)

namespace Call

def run : Call → Asm Unit
  | newLabel => do
    let _ ← Asm.newLabel
  | mark l => Asm.mark l
  | setInitialFrame locals => Asm.setInitialFrame locals
  | frame f => Asm.frame f
  | line n => Asm.line n
  | catch_ c => Asm.catch_ c
  | op o => Asm.op o
  | int n => Asm.int n
  | long bits => Asm.long bits
  | float bits => Asm.float bits
  | double bits => Asm.double bits
  | string text => Asm.string text
  | classConst name => Asm.classConst name
  | null => Asm.null
  | load desc slot => Asm.load desc slot.toNat
  | store desc slot => Asm.store desc slot.toNat
  | increment slot n => Asm.increment slot.toNat n.toInt
  | return_ desc => Asm.return_ desc
  | arrayLoad element => Asm.arrayLoad element
  | arrayStore element => Asm.arrayStore element
  | field o owner name desc => Asm.field o owner name desc
  | invoke o owner name desc ofInterface => Asm.invoke o owner name desc ofInterface
  | typeOp o name => Asm.typeOp o name
  | newArray element => Asm.newArray element
  | multiArray desc dims => Asm.multiArray desc dims
  | jump o target => Asm.jump o target
  | tableSwitch low targets default => Asm.tableSwitch low targets default
  | lookupSwitch keys targets default => Asm.lookupSwitch keys targets default
  | switch keys targets default => Asm.switch keys targets default

def appends : Call → Bool
  | newLabel | mark _ | setInitialFrame _ | frame _ | line _ | catch_ _ => false
  | _ => true

/-- Whether the arguments are of the kind that the call is for: an opcode of its family, a number
that its operand can hold, keys up to the greatest int. -/
def isProper : Call → Bool
  | op o => o.isOrdinary && o.operandBytes == 0
  | increment _ n => -32768 ≤ n.toInt && n.toInt ≤ 32767
  | field o _ _ _ => o ∈ [.getstatic, .putstatic, .getfield, .putfield]
  | invoke o _ _ _ _ => o ∈ [.invokevirtual, .invokespecial, .invokestatic, .invokeinterface]
  | typeOp o _ => o ∈ [.new, .anewarray, .checkcast, .instanceof]
  | multiArray _ dims => 0 ≤ dims && dims ≤ 255
  | jump o _ => o.isBranch && o != .jsr
  | tableSwitch low targets _ => low.toInt + targets.length ≤ 2147483648
  | _ => true

/-- The labels that control may go to because of the call. -/
def destinations : Call → List CodeLabel
  | jump _ target => [target]
  | tableSwitch _ targets default | lookupSwitch _ targets default | switch _ targets default =>
    default :: targets
  | catch_ c => [c.handler]
  | _ => []

/-- Whether control does not run on behind the instruction of the call. -/
def transfers : Call → Bool
  | op o => o.leaves
  | return_ _ | tableSwitch _ _ _ | lookupSwitch _ _ _ | switch _ _ _ => true
  | jump o _ => o == .goto
  | _ => false

end Call

/-! ## What is shown -/

/-- The place of a descriptor among int, long, float, double and reference. -/
def valueFamily (desc : Text) : Option Nat :=
  desc.first?.map fun b => if b ∈ [90, 66, 67, 83, 73] then 0 else if b = 74 then 1
    else if b = 70 then 2 else if b = 68 then 3 else 4

/-- The place of an element type, by its letter, in a family of opcodes with one for each. -/
def elementPlace (b : UInt8) : Option Nat :=
  if b = 73 then some 0 else if b = 74 then some 1 else if b = 70 then some 2
  else if b = 68 then some 3 else if b = 76 ∨ b = 91 then some 4
  else if b = 90 ∨ b = 66 then some 5 else if b = 67 then some 6
  else if b = 83 then some 7 else none

/-- The opcode for an element type out of a family; an unknown letter has none. -/
def elementOpcode (base : Opcode) (element : Text) : Option Opcode :=
  element.first?.map fun b => ((elementPlace b).map base.plus).getD .nop

/-- The code of a primitive element type; their letters are in the order of the codes from 4 on. -/
def arrayCode? (b : UInt8) : Option UInt8 :=
  ([90, 67, 70, 68, 66, 83, 73, 74].idxOf? b).map fun place => UInt8.ofNat (4 + place)

/-- The conditions two by two: on zero, of ints, of references and on null. -/
def conditionPairs : List (UInt8 × UInt8) :=
  [(153, 154), (155, 156), (157, 158), (159, 160), (161, 162), (163, 164), (165, 166), (198, 199)]

/-- Whether one of two branches is taken exactly when the other is not. -/
def Opcode.isOpposite (o other : Opcode) : Bool :=
  (o.code, other.code) ∈ conditionPairs ∨ (other.code, o.code) ∈ conditionPairs

/-- An instruction that reads or writes a local: the slot is built in or an operand. -/
inductive Accesses (base short : Opcode) (family : Nat) (slot : UInt16) : Instruction → Prop where
  | builtIn (pc : Nat) (small : slot.toNat ≤ 3) :
      Accesses base short family slot { pc, op := short.plus (4 * family + slot.toNat) }
  | operand (pc : Nat) (isWide : Bool) :
      Accesses base short family slot
        { pc, op := base.plus family, isWide, args := [(slot.toNat : Int)] }

inductive Pushes (isIt : UInt16 → Prop) : Instruction → Prop where
  | ldc (pc : Nat) (o : Opcode) (form : o = .ldc ∨ o = .ldcW) (index : UInt16) (here : isIt index) :
      Pushes isIt { pc, op := o, args := [(index.toNat : Int)] }

/-- The target of a key: that of the last branch with the key, or the default. -/
def targetOf (branches : List (Int32 × CodeLabel)) (default : CodeLabel) (key : Int) : CodeLabel :=
  ((branches.reverse.find? fun branch => branch.1.toInt == key).map Prod.snd).getD default

/-- A table for branches: one target for each key from the least to the greatest. -/
structure IsTable (branches : List (Int32 × CodeLabel)) (default : CodeLabel) (low : Int)
    (targets : List CodeLabel) : Prop where
  least : (∃ branch ∈ branches, branch.1.toInt = low) ∧
    ∀ branch ∈ branches, low ≤ branch.1.toInt
  greatest : (∃ branch ∈ branches, branch.1.toInt = low + targets.length - 1) ∧
    ∀ branch ∈ branches, branch.1.toInt ≤ low + targets.length - 1
  target : ∀ (i : Nat) (target : CodeLabel), targets[i]? = some target →
    target = targetOf branches default (low + i)

/-- A switch over the keys from `low` on, one for each target. -/
def Instruction.table (at_ : CodeLabel → Nat) (pc : Nat) (low : Int) (targets : List CodeLabel)
    (default : CodeLabel) : Instruction where
  pc
  op := .tableswitch
  args := (at_ default : Int) :: tableArgs low (targets.map at_)

/-- A switch over the keys of branches. -/
def Instruction.lookup (at_ : CodeLabel → Nat) (pc : Nat) (branches : List (Int32 × CodeLabel))
    (default : CodeLabel) : Instruction where
  pc
  op := .lookupswitch
  args := (at_ default : Int) ::
    branches.flatMap fun branch => [branch.1.toInt, (at_ branch.2 : Int)]

abbrev Standing := CodeLabel → Nat → Prop

inductive Shows (p : Pool) (stands : Standing) : Call → List Instruction → Prop where
  | op (pc : Nat) (o : Opcode) : Shows p stands (.op o) [{ pc, op := o }]
  | iconst (pc : Nat) (n : Int32) (small : -1 ≤ n.toInt ∧ n.toInt ≤ 5) :
      Shows p stands (.int n) [{ pc, op := ⟨byteOfInt (3 + n.toInt)⟩ }]
  | bipush (pc : Nat) (n : Int32) : Shows p stands (.int n) [{ pc, op := .bipush, args := [n.toInt] }]
  | sipush (pc : Nat) (n : Int32) : Shows p stands (.int n) [{ pc, op := .sipush, args := [n.toInt] }]
  | int (n : Int32) (i : Instruction) (pushes : Pushes (p.Has · (.integer n.toUInt32)) i) :
      Shows p stands (.int n) [i]
  | lconst (pc : Nat) (bits : UInt64) (small : bits = 0 ∨ bits = 1) :
      Shows p stands (.long bits) [{ pc, op := Opcode.lconst0.plus bits.toNat }]
  | long (pc : Nat) (bits : UInt64) (index : UInt16) (here : p.Has index (.long bits)) :
      Shows p stands (.long bits) [{ pc, op := .ldc2W, args := [(index.toNat : Int)] }]
  | fconst (pc n : Nat) (bits : UInt32)
      (value : (n, bits) ∈ [(0, 0), (1, 0x3f800000), (2, 0x40000000)]) :
      Shows p stands (.float bits) [{ pc, op := Opcode.fconst0.plus n }]
  | float (bits : UInt32) (i : Instruction) (pushes : Pushes (p.Has · (.float bits)) i) :
      Shows p stands (.float bits) [i]
  | dconst (pc n : Nat) (bits : UInt64) (value : (n, bits) ∈ [(0, 0), (1, 0x3ff0000000000000)]) :
      Shows p stands (.double bits) [{ pc, op := Opcode.dconst0.plus n }]
  | double (pc : Nat) (bits : UInt64) (index : UInt16) (here : p.Has index (.double bits)) :
      Shows p stands (.double bits) [{ pc, op := .ldc2W, args := [(index.toNat : Int)] }]
  | string (text : Text) (i : Instruction) (pushes : Pushes (p.IsString · text) i) :
      Shows p stands (.string text) [i]
  | classConst (name : Text) (i : Instruction) (pushes : Pushes (p.IsClass · name) i) :
      Shows p stands (.classConst name) [i]
  | null (pc : Nat) : Shows p stands .null [{ pc, op := .aconstNull }]
  | load (desc : Text) (slot : UInt16) (family : Nat) (typed : valueFamily desc = some family)
      (i : Instruction) (accesses : Accesses .iload .iload0 family slot i) :
      Shows p stands (.load desc slot) [i]
  | store (desc : Text) (slot : UInt16) (family : Nat) (typed : valueFamily desc = some family)
      (i : Instruction) (accesses : Accesses .istore .istore0 family slot i) :
      Shows p stands (.store desc slot) [i]
  | increment (pc : Nat) (slot : UInt16) (n : Int32) (isWide : Bool) :
      Shows p stands (.increment slot n)
        [{ pc, op := .iinc, isWide, args := [(slot.toNat : Int), n.toInt] }]
  | return_ (pc : Nat) : Shows p stands (.return_ "V") [{ pc, op := .return_ }]
  | returnValue (pc : Nat) (desc : Text) (value : desc ≠ "V") (family : Nat)
      (typed : valueFamily desc = some family) :
      Shows p stands (.return_ desc) [{ pc, op := Opcode.ireturn.plus family }]
  | arrayLoad (pc : Nat) (element : Text) (o : Opcode)
      (typed : elementOpcode .iaload element = some o) :
      Shows p stands (.arrayLoad element) [{ pc, op := o }]
  | arrayStore (pc : Nat) (element : Text) (o : Opcode)
      (typed : elementOpcode .iastore element = some o) :
      Shows p stands (.arrayStore element) [{ pc, op := o }]
  | field (pc : Nat) (o : Opcode) (owner name desc : Text) (index : UInt16)
      (here : p.IsMember .fieldRef index owner name desc) :
      Shows p stands (.field o owner name desc) [{ pc, op := o, args := [(index.toNat : Int)] }]
  | invoke (pc : Nat) (o : Opcode) (owner name desc : Text) (ofInterface : Bool) (index : UInt16)
      (here : p.IsMember (if ofInterface || o == .invokeinterface then .interfaceMethodRef
        else .methodRef) index owner name desc) :
      Shows p stands (.invoke o owner name desc ofInterface)
        [{ pc, op := o, args := [(index.toNat : Int)] }]
  | typeOp (pc : Nat) (o : Opcode) (name : Text) (index : UInt16) (here : p.IsClass index name) :
      Shows p stands (.typeOp o name) [{ pc, op := o, args := [(index.toNat : Int)] }]
  | newarray (pc : Nat) (element : Text) (code : UInt8)
      (primitive : element.first?.bind arrayCode? = some code) :
      Shows p stands (.newArray element) [{ pc, op := .newarray, args := [(code.toNat : Int)] }]
  | anewarray (pc : Nat) (element : Text) (index : UInt16)
      (reference : element.first?.bind arrayCode? = none)
      (here : p.IsClass index (Descriptor.className element)) :
      Shows p stands (.newArray element) [{ pc, op := .anewarray, args := [(index.toNat : Int)] }]
  | multiArray (pc : Nat) (desc : Text) (dims : Int) (index : UInt16)
      (here : p.IsClass index desc) :
      Shows p stands (.multiArray desc dims)
        [{ pc, op := .multianewarray, args := [(index.toNat : Int), dims] }]
  | jump (pc : Nat) (o : Opcode) (target : CodeLabel) (address : Nat)
      (there : stands target address) :
      Shows p stands (.jump o target) [{ pc, op := o, args := [(address : Int)] }]
  | gotoW (pc : Nat) (target : CodeLabel) (address : Nat) (there : stands target address) :
      Shows p stands (.jump .goto target) [{ pc, op := .gotoW, args := [(address : Int)] }]
  | skipping (pc : Nat) (o other : Opcode) (target : CodeLabel) (address : Nat)
      (there : stands target address) (opposite : o.isOpposite other) :
      Shows p stands (.jump o target)
        [{ pc, op := other, args := [(pc : Int) + 8] },
          { pc := pc + 3, op := .gotoW, args := [(address : Int)] }]
  | tableSwitch (pc : Nat) (low : Int32) (targets : List CodeLabel) (default : CodeLabel)
      (at_ : CodeLabel → Nat) (there : ∀ l ∈ default :: targets, stands l (at_ l)) :
      Shows p stands (.tableSwitch low targets default) [.table at_ pc low.toInt targets default]
  | lookupSwitch (pc : Nat) (keys : List Int32) (targets : List CodeLabel) (default : CodeLabel)
      (branches : List (Int32 × CodeLabel)) (same : branches.Perm (keys.zip targets))
      (sorted : branches.Pairwise fun a b => a.1 ≤ b.1) (at_ : CodeLabel → Nat)
      (there : ∀ l ∈ default :: branches.map Prod.snd, stands l (at_ l)) :
      Shows p stands (.lookupSwitch keys targets default) [.lookup at_ pc branches default]
  | sparse (pc : Nat) (keys : List Int32) (targets : List CodeLabel) (default : CodeLabel)
      (branches : List (Int32 × CodeLabel)) (same : branches.Perm (keys.zip targets))
      (sorted : branches.Pairwise fun a b => a.1 ≤ b.1) (at_ : CodeLabel → Nat)
      (there : ∀ l ∈ default :: branches.map Prod.snd, stands l (at_ l)) :
      Shows p stands (.switch keys targets default) [.lookup at_ pc branches default]
  | dense (pc : Nat) (keys : List Int32) (targets : List CodeLabel) (default : CodeLabel)
      (low : Int) (table : List CodeLabel)
      (isTable : IsTable (keys.zip targets) default low table) (at_ : CodeLabel → Nat)
      (there : ∀ l ∈ default :: table, stands l (at_ l)) :
      Shows p stands (.switch keys targets default) [.table at_ pc low table default]

/-! ## Items -/

/-- An item that is for a call, given the pool: wherever it ends up, it shows the call. -/
inductive Item.IsFor (p : Pool) (call : Call) : Item → Prop where
  | bytes {data : List UInt8} (shows : ∀ (pc : Nat) (stands : Standing),
      ∃ i : Instruction, i.pc = pc ∧ Scan.Encodes data i ∧ Shows p stands call [i]) :
      Item.IsFor p call (.bytes data)
  | jump {o : Opcode} {target : CodeLabel} (isLong : Bool) (asked : call = .jump o target)
      (branch : o.isBranch = true) (once : o ≠ .jsr) : Item.IsFor p call (.jump o target isLong)
  | table {targets : List CodeLabel} {default : CodeLabel} (low : Int) (least : -2147483648 ≤ low)
      (greatest : low + targets.length ≤ 2147483648)
      (shows : ∀ (pc : Nat) (stands : Standing) (at_ : CodeLabel → Nat),
        (∀ l ∈ default :: targets, stands l (at_ l)) →
        Shows p stands call [.table at_ pc low targets default]) :
      Item.IsFor p call (.switch true ((List.range targets.length).map fun (i : Nat) =>
        low + (i : Int)) targets default)
  | lookup {default : CodeLabel} (branches : List (Int32 × CodeLabel))
      (shows : ∀ (pc : Nat) (stands : Standing) (at_ : CodeLabel → Nat),
        (∀ l ∈ default :: branches.map Prod.snd, stands l (at_ l)) →
        Shows p stands call [.lookup at_ pc branches default]) :
      Item.IsFor p call (.switch false (branches.map fun branch => branch.1.toInt)
        (branches.map Prod.snd) default)

end DexLift.Jvm
