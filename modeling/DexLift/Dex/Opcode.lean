/-!
# Dalvik opcodes

The instruction set is laid out in runs of neighbouring opcodes that share an
encoding and a control-flow behaviour. The table is built from those runs;
opcodes in no run are unused.
-/

namespace DexLift.Dex

/-- An instruction encoding: how the operands are spread over the code units. -/
inductive Format where
  | f10x | f12x | f11n | f11x | f10t | f20t | f22x | f21t | f21s | f21h | f21c | f23x | f22b
  | f22t | f22s | f22c | f30t | f32x | f31i | f31t | f31c | f35c | f3rc | f45cc | f4rcc | f51l
deriving DecidableEq, Repr

/-- The number of 16-bit code units of an encoding. -/
def Format.units : Format → Nat
  | f10x | f12x | f11n | f11x | f10t => 1
  | f20t | f22x | f21t | f21s | f21h | f21c | f23x | f22b | f22t | f22s | f22c => 2
  | f30t | f32x | f31i | f31t | f31c | f35c | f3rc => 3
  | f45cc | f4rcc => 4
  | f51l => 5

theorem Format.units_pos (format : Format) : 0 < format.units := by
  cases format <;> decide

structure Flow where
  throws : Bool := false
  branches : Bool := false
  switches : Bool := false
  /-- Control can reach the next instruction. -/
  continues : Bool := false
  returns : Bool := false
  /-- The opcode is not assigned. -/
  unassigned : Bool := false
deriving DecidableEq, Repr

/-- The flags as one number, one bit each in the order of the fields. -/
def Flow.bits (flow : Flow) : Nat :=
  flow.throws.toNat + 2 * flow.branches.toNat + 4 * flow.switches.toNat +
    8 * flow.continues.toNat + 16 * flow.returns.toNat + 32 * flow.unassigned.toNat

/-- What the table says about one opcode. -/
structure OpcodeInfo where
  name : String
  format : Format
  flow : Flow
deriving Repr

structure Run where
  first : Nat
  names : List String
  format : Format
  flow : Flow

/-- Goes on to the next instruction. -/
def Flow.plain : Flow := { continues := true }

/-- Goes on to the next instruction unless it throws. -/
def Flow.throwing : Flow := { throws := true, continues := true }

def withEnding (ending : String) (names : List String) : List String := names.map (· ++ ending)

/-- Every name after a beginning. -/
def withStart (start : String) (names : List String) : List String := names.map (start ++ ·)

/-- Endings of the element and field access families. -/
def accessEndings : List String := ["", "-wide", "-object", "-boolean", "-byte", "-char", "-short"]

/-- The five ways to call a method. -/
def invokeNames : List String :=
  withStart "invoke-" ["virtual", "super", "direct", "static", "interface"]

/-- The runs of arithmetic opcodes with two operands, in the order of the encoding; divisions of
integers can throw. -/
def arithmetic : List (List String × Flow) := [
  (["add-int", "sub-int", "mul-int"], .plain),
  (["div-int", "rem-int"], .throwing),
  (["and-int", "or-int", "xor-int", "shl-int", "shr-int", "ushr-int"], .plain),
  (["add-long", "sub-long", "mul-long"], .plain),
  (["div-long", "rem-long"], .throwing),
  (["and-long", "or-long", "xor-long", "shl-long", "shr-long", "ushr-long"], .plain),
  (withEnding "-float" ["add", "sub", "mul", "div", "rem"], .plain),
  (withEnding "-double" ["add", "sub", "mul", "div", "rem"], .plain)]

def arithmeticRuns (first : Nat) (ending : String) (format : Format) :
    List (List String × Flow) → List Run
  | [] => []
  | (names, flow) :: rest =>
    ⟨first, withEnding ending names, format, flow⟩ ::
      arithmeticRuns (first + names.length) ending format rest

/-- The whole instruction set. -/
def runs : List Run := [
  ⟨0x00, ["nop"], .f10x, .plain⟩,
  ⟨0x01, ["move"], .f12x, .plain⟩,
  ⟨0x02, ["move/from16"], .f22x, .plain⟩,
  ⟨0x03, ["move/16"], .f32x, .plain⟩,
  ⟨0x04, ["move-wide"], .f12x, .plain⟩,
  ⟨0x05, ["move-wide/from16"], .f22x, .plain⟩,
  ⟨0x06, ["move-wide/16"], .f32x, .plain⟩,
  ⟨0x07, ["move-object"], .f12x, .plain⟩,
  ⟨0x08, ["move-object/from16"], .f22x, .plain⟩,
  ⟨0x09, ["move-object/16"], .f32x, .plain⟩,
  ⟨0x0a, ["move-result", "move-result-wide", "move-result-object", "move-exception"], .f11x,
    .plain⟩,
  ⟨0x0e, ["return-void"], .f10x, { returns := true }⟩,
  ⟨0x0f, ["return", "return-wide", "return-object"], .f11x, { returns := true }⟩,
  ⟨0x12, ["const/4"], .f11n, .plain⟩,
  ⟨0x13, ["const/16"], .f21s, .plain⟩,
  ⟨0x14, ["const"], .f31i, .plain⟩,
  ⟨0x15, ["const/high16"], .f21h, .plain⟩,
  ⟨0x16, ["const-wide/16"], .f21s, .plain⟩,
  ⟨0x17, ["const-wide/32"], .f31i, .plain⟩,
  ⟨0x18, ["const-wide"], .f51l, .plain⟩,
  ⟨0x19, ["const-wide/high16"], .f21h, .plain⟩,
  ⟨0x1a, ["const-string"], .f21c, .plain⟩,
  ⟨0x1b, ["const-string/jumbo"], .f31c, .plain⟩,
  ⟨0x1c, ["const-class"], .f21c, .plain⟩,
  ⟨0x1d, ["monitor-enter", "monitor-exit"], .f11x, .throwing⟩,
  ⟨0x1f, ["check-cast"], .f21c, .throwing⟩,
  ⟨0x20, ["instance-of"], .f22c, .plain⟩,
  ⟨0x21, ["array-length"], .f12x, .throwing⟩,
  ⟨0x22, ["new-instance"], .f21c, .throwing⟩,
  ⟨0x23, ["new-array"], .f22c, .throwing⟩,
  ⟨0x24, ["filled-new-array"], .f35c, .throwing⟩,
  ⟨0x25, ["filled-new-array/range"], .f3rc, .throwing⟩,
  ⟨0x26, ["fill-array-data"], .f31t, .throwing⟩,
  ⟨0x27, ["throw"], .f11x, { throws := true }⟩,
  ⟨0x28, ["goto"], .f10t, { branches := true }⟩,
  ⟨0x29, ["goto/16"], .f20t, { branches := true }⟩,
  ⟨0x2a, ["goto/32"], .f30t, { branches := true }⟩,
  ⟨0x2b, ["packed-switch", "sparse-switch"], .f31t, { switches := true, continues := true }⟩,
  ⟨0x2d, ["cmpl-float", "cmpg-float", "cmpl-double", "cmpg-double", "cmp-long"], .f23x, .plain⟩,
  ⟨0x32, ["if-eq", "if-ne", "if-lt", "if-ge", "if-gt", "if-le"], .f22t,
    { branches := true, continues := true }⟩,
  ⟨0x38, ["if-eqz", "if-nez", "if-ltz", "if-gez", "if-gtz", "if-lez"], .f21t,
    { branches := true, continues := true }⟩,
  ⟨0x44, withStart "aget" accessEndings ++ withStart "aput" accessEndings, .f23x, .throwing⟩,
  ⟨0x52, withStart "iget" accessEndings ++ withStart "iput" accessEndings, .f22c, .throwing⟩,
  ⟨0x60, withStart "sget" accessEndings ++ withStart "sput" accessEndings, .f21c, .throwing⟩,
  ⟨0x6e, invokeNames, .f35c, .throwing⟩,
  ⟨0x74, withEnding "/range" invokeNames, .f3rc, .throwing⟩,
  ⟨0x7b, ["neg-int", "not-int", "neg-long", "not-long", "neg-float", "neg-double", "int-to-long",
    "int-to-float", "int-to-double", "long-to-int", "long-to-float", "long-to-double",
    "float-to-int", "float-to-long", "float-to-double", "double-to-int", "double-to-long",
    "double-to-float", "int-to-byte", "int-to-char", "int-to-short"], .f12x, .plain⟩] ++
  arithmeticRuns 0x90 "" .f23x arithmetic ++
  arithmeticRuns 0xb0 "/2addr" .f12x arithmetic ++ [
  ⟨0xd0, ["add-int/lit16", "rsub-int", "mul-int/lit16"], .f22s, .plain⟩,
  ⟨0xd3, ["div-int/lit16", "rem-int/lit16"], .f22s, .throwing⟩,
  ⟨0xd5, ["and-int/lit16", "or-int/lit16", "xor-int/lit16"], .f22s, .plain⟩,
  ⟨0xd8, ["add-int/lit8", "rsub-int/lit8", "mul-int/lit8"], .f22b, .plain⟩,
  ⟨0xdb, ["div-int/lit8", "rem-int/lit8"], .f22b, .throwing⟩,
  ⟨0xdd, ["and-int/lit8", "or-int/lit8", "xor-int/lit8", "shl-int/lit8", "shr-int/lit8",
    "ushr-int/lit8"], .f22b, .plain⟩,
  ⟨0xfa, ["invoke-polymorphic"], .f45cc, .throwing⟩,
  ⟨0xfb, ["invoke-polymorphic/range"], .f4rcc, .throwing⟩,
  ⟨0xfc, ["invoke-custom"], .f35c, .throwing⟩,
  ⟨0xfd, ["invoke-custom/range"], .f3rc, .throwing⟩,
  ⟨0xfe, ["const-method-handle", "const-method-type"], .f21c, .throwing⟩]

def Run.info? (run : Run) (code : Nat) : Option OpcodeInfo :=
  if run.first ≤ code then
    run.names[code - run.first]?.map fun name => ⟨name, run.format, run.flow⟩
  else none

/-- What is known about an opcode in no run. -/
def OpcodeInfo.unused : OpcodeInfo := ⟨"unused", .f10x, { unassigned := true }⟩

def opcodeTable : Vector OpcodeInfo 256 :=
  Vector.ofFn fun code => (runs.findSome? (·.info? code)).getD .unused

structure Opcode where
  code : UInt8
deriving DecidableEq, Inhabited, Repr

namespace Opcode

def info (op : Opcode) : OpcodeInfo := opcodeTable.get op.code.toFin

def name (op : Opcode) : String := op.info.name

def format (op : Opcode) : Format := op.info.format

/-- Where control can go. -/
def flow (op : Opcode) : Flow := op.info.flow

/-- Whether the opcode lies in a range, both ends included. -/
def within (op : Opcode) (first last : UInt8) : Bool := first ≤ op.code && op.code ≤ last

/-- Whether the instruction calls a method or a call site. -/
def isInvoke (op : Opcode) : Bool :=
  op.within 0x6e 0x72 || op.within 0x74 0x78 || op.within 0xfa 0xfd

/-- Whether the instruction takes the result of the instruction before it. -/
def isMoveResult (op : Opcode) : Bool := op.within 0x0a 0x0c

end Opcode

end DexLift.Dex
