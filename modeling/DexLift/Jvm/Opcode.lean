import DexLift.Text.Basic

/-!
# Bytecode instructions

For every opcode the mnemonic, the change of the operand stack in slots and the
number of bytes that follow it. Access to members, calls and arrays of arrays
change the stack by what their operands say; switches and the wide forms have
operands of their own length. The table has 0 for those.
-/

namespace DexLift.Jvm

/-- Mnemonic, change of the stack and operand bytes of the opcodes, by code. -/
def opcodeTable : Array (String × Int × Nat) := #[
  ("nop", 0, 0), ("aconst_null", 1, 0), ("iconst_m1", 1, 0), ("iconst_0", 1, 0), ("iconst_1", 1, 0),
  ("iconst_2", 1, 0), ("iconst_3", 1, 0), ("iconst_4", 1, 0), ("iconst_5", 1, 0),
  ("lconst_0", 2, 0), ("lconst_1", 2, 0), ("fconst_0", 1, 0), ("fconst_1", 1, 0),
  ("fconst_2", 1, 0), ("dconst_0", 2, 0), ("dconst_1", 2, 0), ("bipush", 1, 1), ("sipush", 1, 2),
  ("ldc", 1, 1), ("ldc_w", 1, 2), ("ldc2_w", 2, 2), ("iload", 1, 1), ("lload", 2, 1),
  ("fload", 1, 1), ("dload", 2, 1), ("aload", 1, 1), ("iload_0", 1, 0), ("iload_1", 1, 0),
  ("iload_2", 1, 0), ("iload_3", 1, 0), ("lload_0", 2, 0), ("lload_1", 2, 0), ("lload_2", 2, 0),
  ("lload_3", 2, 0), ("fload_0", 1, 0), ("fload_1", 1, 0), ("fload_2", 1, 0), ("fload_3", 1, 0),
  ("dload_0", 2, 0), ("dload_1", 2, 0), ("dload_2", 2, 0), ("dload_3", 2, 0), ("aload_0", 1, 0),
  ("aload_1", 1, 0), ("aload_2", 1, 0), ("aload_3", 1, 0), ("iaload", -1, 0), ("laload", 0, 0),
  ("faload", -1, 0), ("daload", 0, 0), ("aaload", -1, 0), ("baload", -1, 0), ("caload", -1, 0),
  ("saload", -1, 0), ("istore", -1, 1), ("lstore", -2, 1), ("fstore", -1, 1), ("dstore", -2, 1),
  ("astore", -1, 1), ("istore_0", -1, 0), ("istore_1", -1, 0), ("istore_2", -1, 0),
  ("istore_3", -1, 0), ("lstore_0", -2, 0), ("lstore_1", -2, 0), ("lstore_2", -2, 0),
  ("lstore_3", -2, 0), ("fstore_0", -1, 0), ("fstore_1", -1, 0), ("fstore_2", -1, 0),
  ("fstore_3", -1, 0), ("dstore_0", -2, 0), ("dstore_1", -2, 0), ("dstore_2", -2, 0),
  ("dstore_3", -2, 0), ("astore_0", -1, 0), ("astore_1", -1, 0), ("astore_2", -1, 0),
  ("astore_3", -1, 0), ("iastore", -3, 0), ("lastore", -4, 0), ("fastore", -3, 0),
  ("dastore", -4, 0), ("aastore", -3, 0), ("bastore", -3, 0), ("castore", -3, 0),
  ("sastore", -3, 0), ("pop", -1, 0), ("pop2", -2, 0), ("dup", 1, 0), ("dup_x1", 1, 0),
  ("dup_x2", 1, 0), ("dup2", 2, 0), ("dup2_x1", 2, 0), ("dup2_x2", 2, 0), ("swap", 0, 0),
  ("iadd", -1, 0), ("ladd", -2, 0), ("fadd", -1, 0), ("dadd", -2, 0), ("isub", -1, 0),
  ("lsub", -2, 0), ("fsub", -1, 0), ("dsub", -2, 0), ("imul", -1, 0), ("lmul", -2, 0),
  ("fmul", -1, 0), ("dmul", -2, 0), ("idiv", -1, 0), ("ldiv", -2, 0), ("fdiv", -1, 0),
  ("ddiv", -2, 0), ("irem", -1, 0), ("lrem", -2, 0), ("frem", -1, 0), ("drem", -2, 0),
  ("ineg", 0, 0), ("lneg", 0, 0), ("fneg", 0, 0), ("dneg", 0, 0), ("ishl", -1, 0), ("lshl", -1, 0),
  ("ishr", -1, 0), ("lshr", -1, 0), ("iushr", -1, 0), ("lushr", -1, 0), ("iand", -1, 0),
  ("land", -2, 0), ("ior", -1, 0), ("lor", -2, 0), ("ixor", -1, 0), ("lxor", -2, 0), ("iinc", 0, 2),
  ("i2l", 1, 0), ("i2f", 0, 0), ("i2d", 1, 0), ("l2i", -1, 0), ("l2f", -1, 0), ("l2d", 0, 0),
  ("f2i", 0, 0), ("f2l", 1, 0), ("f2d", 1, 0), ("d2i", -1, 0), ("d2l", 0, 0), ("d2f", -1, 0),
  ("i2b", 0, 0), ("i2c", 0, 0), ("i2s", 0, 0), ("lcmp", -3, 0), ("fcmpl", -1, 0), ("fcmpg", -1, 0),
  ("dcmpl", -3, 0), ("dcmpg", -3, 0), ("ifeq", -1, 2), ("ifne", -1, 2), ("iflt", -1, 2),
  ("ifge", -1, 2), ("ifgt", -1, 2), ("ifle", -1, 2), ("if_icmpeq", -2, 2), ("if_icmpne", -2, 2),
  ("if_icmplt", -2, 2), ("if_icmpge", -2, 2), ("if_icmpgt", -2, 2), ("if_icmple", -2, 2),
  ("if_acmpeq", -2, 2), ("if_acmpne", -2, 2), ("goto", 0, 2), ("jsr", 1, 2), ("ret", 0, 1),
  ("tableswitch", -1, 0), ("lookupswitch", -1, 0), ("ireturn", -1, 0), ("lreturn", -2, 0),
  ("freturn", -1, 0), ("dreturn", -2, 0), ("areturn", -1, 0), ("return", 0, 0), ("getstatic", 0, 2),
  ("putstatic", 0, 2), ("getfield", 0, 2), ("putfield", 0, 2), ("invokevirtual", 0, 2),
  ("invokespecial", 0, 2), ("invokestatic", 0, 2), ("invokeinterface", 0, 4),
  ("invokedynamic", 0, 4), ("new", 1, 2), ("newarray", 0, 1), ("anewarray", 0, 2),
  ("arraylength", 0, 0), ("athrow", -1, 0), ("checkcast", 0, 2), ("instanceof", 0, 2),
  ("monitorenter", -1, 0), ("monitorexit", -1, 0), ("wide", 0, 0), ("multianewarray", 0, 3),
  ("ifnull", -1, 2), ("ifnonnull", -1, 2), ("goto_w", 0, 4), ("jsr_w", 1, 4)]

structure Opcode where
  code : UInt8
deriving DecidableEq, Inhabited

namespace Opcode

/-- The number of assigned opcodes; they come first. -/
def assigned : Nat := opcodeTable.size

def isAssigned (op : Opcode) : Bool := op.code.toNat < assigned

def name (op : Opcode) : String := ((opcodeTable[op.code.toNat]?).map Prod.fst).getD "invalid"

/-- The change of the operand stack in slots, where it does not depend on operands. -/
def delta (op : Opcode) : Int := ((opcodeTable[op.code.toNat]?).map fun row => row.2.1).getD 0

/-- The number of operand bytes, where it is fixed. -/
def operandBytes (op : Opcode) : Nat :=
  ((opcodeTable[op.code.toNat]?).map fun row => row.2.2).getD 0

def ofName? (name : String) : Option Opcode :=
  (opcodeTable.findIdx? fun row => row.1 == name).map fun i => ⟨UInt8.ofNat i⟩

/-- The opcode that comes `n` places later. -/
def plus (op : Opcode) (n : Nat) : Opcode := ⟨op.code + UInt8.ofNat n⟩

/-! Opcodes that are chosen by name, and the first ones of families with one for each type. -/

def nop : Opcode := ⟨0⟩
def aconstNull : Opcode := ⟨1⟩
def iconst0 : Opcode := ⟨3⟩
def lconst0 : Opcode := ⟨9⟩
def fconst0 : Opcode := ⟨11⟩
def dconst0 : Opcode := ⟨14⟩
def bipush : Opcode := ⟨16⟩
def sipush : Opcode := ⟨17⟩
def ldc : Opcode := ⟨18⟩
def ldcW : Opcode := ⟨19⟩
def ldc2W : Opcode := ⟨20⟩
def iload : Opcode := ⟨21⟩
def iload0 : Opcode := ⟨26⟩
def iaload : Opcode := ⟨46⟩
def istore : Opcode := ⟨54⟩
def istore0 : Opcode := ⟨59⟩
def iastore : Opcode := ⟨79⟩
def pop : Opcode := ⟨87⟩
def pop2 : Opcode := ⟨88⟩
def dup : Opcode := ⟨89⟩
def iadd : Opcode := ⟨96⟩
def ineg : Opcode := ⟨116⟩
def ishl : Opcode := ⟨120⟩
def iand : Opcode := ⟨126⟩
def ixor : Opcode := ⟨130⟩
def lxor : Opcode := ⟨131⟩
def iinc : Opcode := ⟨132⟩
def i2l : Opcode := ⟨133⟩
def i2b : Opcode := ⟨145⟩
def i2c : Opcode := ⟨146⟩
def i2s : Opcode := ⟨147⟩
def lcmp : Opcode := ⟨148⟩
def fcmpl : Opcode := ⟨149⟩
def dcmpl : Opcode := ⟨151⟩
def ifeq : Opcode := ⟨153⟩
def ifIcmpeq : Opcode := ⟨159⟩
def ifAcmpeq : Opcode := ⟨165⟩
def goto : Opcode := ⟨167⟩
def jsr : Opcode := ⟨168⟩
def tableswitch : Opcode := ⟨170⟩
def lookupswitch : Opcode := ⟨171⟩
def ireturn : Opcode := ⟨172⟩
def return_ : Opcode := ⟨177⟩
def getstatic : Opcode := ⟨178⟩
def putstatic : Opcode := ⟨179⟩
def getfield : Opcode := ⟨180⟩
def putfield : Opcode := ⟨181⟩
def invokevirtual : Opcode := ⟨182⟩
def invokespecial : Opcode := ⟨183⟩
def invokestatic : Opcode := ⟨184⟩
def invokeinterface : Opcode := ⟨185⟩
def invokedynamic : Opcode := ⟨186⟩
def new : Opcode := ⟨187⟩
def newarray : Opcode := ⟨188⟩
def anewarray : Opcode := ⟨189⟩
def arraylength : Opcode := ⟨190⟩
def athrow : Opcode := ⟨191⟩
def checkcast : Opcode := ⟨192⟩
def instanceof : Opcode := ⟨193⟩
def monitorenter : Opcode := ⟨194⟩
def monitorexit : Opcode := ⟨195⟩
def wide : Opcode := ⟨196⟩
def multianewarray : Opcode := ⟨197⟩
def ifnull : Opcode := ⟨198⟩
def ifnonnull : Opcode := ⟨199⟩
def gotoW : Opcode := ⟨200⟩
def jsrW : Opcode := ⟨201⟩

def isBranch (op : Opcode) : Bool :=
  (ifeq.code ≤ op.code && op.code ≤ jsr.code) || op == ifnull || op == ifnonnull

def leaves (op : Opcode) : Bool :=
  op == athrow || (ireturn.code ≤ op.code && op.code ≤ return_.code)

/-- Whether the first operand is an index into the constant pool. -/
def usesPool (op : Opcode) : Bool :=
  (ldc.code ≤ op.code && op.code ≤ ldc2W.code) ||
    (getstatic.code ≤ op.code && op.code ≤ new.code) || op == anewarray || op == checkcast ||
    op == instanceof || op == multianewarray

/-- The branch that is taken exactly when this one is not. -/
def invert (op : Opcode) : Opcode :=
  if op = ifnull ∨ op = ifnonnull then ⟨op.code ^^^ 1⟩
  else ⟨((op.code - ifeq.code) ^^^ 1) + ifeq.code⟩

end Opcode

end DexLift.Jvm
