import DexLift.Jvm.Disassembler
import DexLift.Proofs.Jvm.Scanning

/-!
# Decoding instructions one after another

Every form of an instruction is read back as it was written, at any address. Code
that is put together from such pieces is decoded into their instructions, which
tile it: each begins where the one in front of it ends, and the last ends with the
code.
-/

namespace DexLift.Jvm

open List Opcode

variable {p : Opcode → Prop} {bytes : List UInt8} {n offset : Int} {base default : Nat}
  {targets : List Nat} {i : Instruction} {s : Scanner}

def Instruction.length (i : Instruction) : Nat :=
  if i.isWide then if i.op = .iinc then 6 else 4
  else if i.op = .tableswitch then 13 + switchPadding i.pc + 4 * (i.args.length / 2)
  else if i.op = .lookupswitch then 9 + switchPadding i.pc + 8 * (i.args.length / 2)
  else 1 + i.op.operandBytes

theorem Instruction.length_pos (i : Instruction) : 0 < i.length := by
  unfold length
  split
  · split <;> decide
  · split
    · omega
    · split <;> omega

/-- The opcodes whose operands have a form of their own. -/
def Opcode.special : List Opcode :=
  [bipush, sipush, iinc, gotoW, jsrW, invokeinterface, invokedynamic, multianewarray, wide,
    tableswitch, lookupswitch]

/-- Whether the operands of an opcode are one number of fixed length, or it has none. -/
def Opcode.isOrdinary (o : Opcode) : Bool :=
  o.isAssigned && !o.isBranch && !(o ∈ special)

theorem Opcode.forall_of_codes (all : ∀ n < 256, p ⟨UInt8.ofNat n⟩) : ∀ o : Opcode, p o := by
  intro o
  have here := all o.code.toNat o.code.toNat_lt
  rwa [UInt8.ofNat_toNat] at here

/-- The number of operand bytes, by ranges of codes instead of by a table. -/
def Opcode.operandSize (o : Opcode) : Nat :=
  if o.code ≤ 15 then 0 else if o.code = 17 ∨ o.code = 19 ∨ o.code = 20 then 2
  else if o.code ≤ 25 then 1 else if o.code ≤ 53 then 0 else if o.code ≤ 58 then 1
  else if o.code = 132 then 2 else if o.code ≤ 152 then 0 else if o.code ≤ 168 then 2
  else if o.code = 169 ∨ o.code = 188 then 1 else if o.code ≤ 177 then 0
  else if o.code = 185 ∨ o.code = 186 ∨ 200 ≤ o.code ∧ o.code ≤ 201 then 4
  else if o.code ≤ 189 then 2 else if o.code ≤ 191 ∨ 194 ≤ o.code ∧ o.code ≤ 196 then 0
  else if o.code = 197 then 3 else if o.code ≤ 199 then 2 else 0

/-- The opcodes of jumps by an offset of two bytes. -/
def Opcode.branches : List Opcode :=
  [ifeq, ⟨154⟩, ⟨155⟩, ⟨156⟩, ⟨157⟩, ⟨158⟩, ⟨159⟩, ⟨160⟩, ⟨161⟩, ⟨162⟩, ⟨163⟩, ⟨164⟩, ⟨165⟩, ⟨166⟩,
    goto, jsr, ifnull, ifnonnull]

/-- The table and the ranges agree on the number of operand bytes. The table is gone through once,
row by row; looking every code up would go through it for each. -/
theorem Opcode.operandBytes_eq_operandSize (o : Opcode) : o.operandBytes = o.operandSize := by
  have rows : (opcodeTable.toList.zipIdx.all fun row =>
      row.1.2.2 == (⟨.ofNat row.2⟩ : Opcode).operandSize) = true := by decide
  have rest : ∀ n < 54, (⟨.ofNat (202 + n)⟩ : Opcode).operandSize = 0 := by decide
  have size : opcodeTable.size = 202 := by decide +kernel
  have same : (⟨.ofNat o.code.toNat⟩ : Opcode) = o := by rw [UInt8.ofNat_toNat]
  have small := o.code.toNat_lt
  unfold operandBytes
  cases found : opcodeTable[o.code.toNat]? with
  | none =>
    have behind : 202 ≤ o.code.toNat := size ▸ Array.getElem?_eq_none_iff.mp found
    have nothing := rest (o.code.toNat - 202) (by omega)
    rw [Nat.add_sub_of_le behind, same] at nothing
    exact nothing.symm
  | some row =>
    have listed : (row, o.code.toNat) ∈ opcodeTable.toList.zipIdx := by
      rwa [mem_zipIdx_iff_getElem?, Array.getElem?_toList]
    have agrees := all_eq_true.mp rows _ listed
    rw [same] at agrees
    exact beq_iff_eq.mp agrees

theorem Opcode.operandBytes_eq (o : Opcode) : o.operandBytes = o.operandSize ∧
    o.isAssigned = decide (o.code ≤ 201) :=
  ⟨o.operandBytes_eq_operandSize,
    forall_of_codes (p := fun o => o.isAssigned = decide (o.code ≤ 201)) (by decide +kernel) o⟩

theorem Opcode.operandSize_le_or : ∀ o : Opcode, o.operandSize ≤ 2 ∨ o ∈ special :=
  forall_of_codes (by decide +kernel)

theorem Opcode.mem_branches : ∀ o : Opcode, o.isBranch = true → o ∈ branches :=
  forall_of_codes (by decide +kernel)

theorem Opcode.forall_of_branches (all : ∀ o ∈ branches, p o) (o : Opcode)
    (branch : o.isBranch = true) : p o :=
  all o (o.mem_branches branch)

def Opcode.HasForm (o : Opcode) (n : Nat) : Prop := o.isOrdinary = true ∧ o.operandBytes = n

instance (o : Opcode) (n : Nat) : Decidable (o.HasForm n) :=
  decidable_of_iff ((o.code ≤ 201 ∧ o.isBranch = false ∧ o ∉ Opcode.special) ∧ o.operandSize = n)
    (by
      obtain ⟨size, known⟩ := o.operandBytes_eq
      simp only [Opcode.HasForm, Opcode.isOrdinary, size, known, Bool.and_eq_true,
        Bool.not_eq_true', decide_eq_true_eq, decide_eq_false_iff_not, and_assoc])

theorem Opcode.isAssigned_wide : ¬ (!wide.isAssigned) = true := by
  rw [(operandBytes_eq wide).2]
  decide

theorem Opcode.HasForm.le_two {o : Opcode} {n : Nat} (form : o.HasForm n) : n ≤ 2 := by
  obtain ⟨ordinary, size⟩ := form
  simp only [isOrdinary, Bool.and_eq_true, Bool.not_eq_true', decide_eq_false_iff_not] at ordinary
  rw [← size, o.operandBytes_eq.1]
  exact o.operandSize_le_or.resolve_right ordinary.2

theorem Opcode.operandBytes_special : ∀ pair ∈ [(bipush, 1), (sipush, 2), (iinc, 2),
    (invokeinterface, 4), (multianewarray, 3), (gotoW, 4)],
    pair.1.isAssigned = true ∧ pair.1.operandBytes = pair.2 := by
  intro pair member
  rw [(operandBytes_eq pair.1).1, (operandBytes_eq pair.1).2]
  revert pair
  decide

theorem Opcode.form_of_isBranch : ∀ o : Opcode, o.isBranch = true →
    o.isAssigned = true ∧ o ∉ special ∧ o.operandBytes = 2 := by
  refine forall_of_branches fun o member => ?_
  rw [o.operandBytes_eq.1, o.operandBytes_eq.2]
  revert o
  decide

/-- The number that the operand of such an opcode spells. -/
def operandOf (bytes : List UInt8) : List Int :=
  if bytes.isEmpty then [] else [(Scan.number bytes : Int)]

/-- The operands of a table behind the default: consecutive keys, each with its address. -/
def tableArgs (key : Int) : List Nat → List Int
  | [] => []
  | target :: targets => key :: (target : Int) :: tableArgs (key + 1) targets

theorem length_tableArgs (key : Int) (targets : List Nat) :
    (tableArgs key targets).length = 2 * targets.length := by
  induction targets generalizing key with
  | nil => rfl
  | cons target targets ih =>
    simp only [tableArgs, length_cons, ih]
    omega

/-- Instructions that take the bytes from one address up to another without a gap. -/
inductive Tiles : Nat → List Instruction → Nat → Prop where
  | done (pc : Nat) : Tiles pc [] pc
  | step (i : Instruction) {rest : List Instruction} {stop : Nat}
      (behind : Tiles (i.pc + i.length) rest stop) : Tiles i.pc (i :: rest) stop

namespace Scan

theorem reads_get {α : Type} {pc : Nat} {next : Scanner → Scan α} {value : α}
    (reads : ∀ s, Before s pc bytes → Reads pc (next s) bytes value) :
    Reads pc (get >>= next) bytes value := by
  intro s before
  exact reads s before s before

structure Encodes (bytes : List UInt8) (i : Instruction) : Prop where
  reads : Reads i.pc instruction bytes (.ok i)
  size : bytes.length = i.length

section Forms

variable {pc : Nat} {o : Opcode} {rest : List UInt8} {args : List Int}

theorem reads_plain (known : o.isAssigned = true)
    (form : o ≠ .wide ∧ o ≠ .tableswitch ∧ o ≠ .lookupswitch)
    (operands : Reads (pc + 1) (plainArgs o pc) rest args) :
    Reads pc instruction (o.code :: rest) (.ok { pc, op := o, args }) := by
  refine reads_get fun s before => ?_
  refine (reads_u1 o.code).bind ?_
  rw [before.off]
  simp only [known, Bool.not_true, Bool.false_eq_true, if_false, form.1, form.2.1, form.2.2,
    or_self]
  exact operands.bind_nil (.pure _)

theorem reads_switch (known : o = .tableswitch ∨ o = .lookupswitch)
    (operands : ∀ size, pc + 1 + rest.length ≤ size →
      Reads (pc + 1) (switchArgs o pc size) rest (.ok args)) :
    Reads pc instruction (o.code :: rest) (.ok { pc, op := o, args }) := by
  refine reads_get fun s before => ?_
  refine (reads_u1 o.code).bind ?_
  have room : pc + 1 + rest.length ≤ s.data.size := by
    have fits := before.fits
    rw [length_cons] at fits
    omega
  have form : o.isAssigned = true ∧ o ≠ .wide := by
    rw [o.operandBytes_eq.2]
    rcases known with rfl | rfl <;> decide
  rw [before.off]
  simp only [form.1, Bool.not_true, Bool.false_eq_true, if_false, form.2, known, if_true]
  exact (operands _ room).bind_nil (.pure _)

theorem encodes_wide (different : o ≠ .iinc) (slot : UInt16) :
    Encodes (wide.code :: o.code :: Jvm.u2 slot)
      { pc, op := o, isWide := true, args := [(slot.toNat : Int)] } := by
  refine ⟨?_, by simp [Instruction.length, different, Jvm.u2]⟩
  refine reads_get fun s before => ?_
  refine (reads_u1 wide.code).bind ?_
  rw [before.off, if_neg (by exact isAssigned_wide), if_pos rfl]
  refine (reads_u1 o.code).bind ?_
  refine (reads_u2 slot).bind_nil ?_
  simp only [different, if_false]
  exact .pure _

theorem encodes_wide_iinc (slot : UInt16) (low : -32768 ≤ n) (high : n ≤ 32767) :
    Encodes (wide.code :: iinc.code :: Jvm.u2 slot ++ u2OfInt n)
      { pc, op := .iinc, isWide := true, args := [(slot.toNat : Int), n] } := by
  refine ⟨?_, by simp [Instruction.length, Jvm.u2, u2OfInt]⟩
  refine reads_get fun s before => ?_
  refine (reads_u1 wide.code).bind ?_
  rw [before.off, if_neg (by exact isAssigned_wide), if_pos rfl]
  refine (reads_u1 iinc.code).bind ?_
  refine (reads_u2 slot).bind ?_
  exact (reads_s2 low high).bind_nil (.pure _)

theorem encodes_plain (known : o.isAssigned = true)
    (form : o ≠ .wide ∧ o ≠ .tableswitch ∧ o ≠ .lookupswitch)
    (operands : Reads (pc + 1) (plainArgs o pc) rest args) (size : o.operandBytes = rest.length) :
    Encodes (o.code :: rest) { pc, op := o, args } := by
  refine ⟨reads_plain known form operands, ?_⟩
  simp only [length_cons, Instruction.length, Bool.false_eq_true, if_false, form.2.1,
    form.2.2, size]
  omega

theorem number_pair_lt (first second : UInt8) : number [first, second] < 65536 := by
  have high := first.toNat_lt
  have low := second.toNat_lt
  simp only [number, foldl_cons, foldl_nil]
  omega

theorem encodes_ordinary (form : o.HasForm rest.length) :
    Encodes (o.code :: rest) { pc, op := o, args := operandOf rest } := by
  have few := form.le_two
  obtain ⟨ordinary, size⟩ := form
  simp only [isOrdinary, Bool.and_eq_true, Bool.not_eq_true', decide_eq_false_iff_not]
    at ordinary
  obtain ⟨⟨known, straight⟩, other⟩ := ordinary
  simp only [special, mem_cons, not_mem_nil, or_false, not_or] at other
  refine encodes_plain known other.2.2.2.2.2.2.2.2 ?_ size
  simp only [plainArgs, other, straight, if_false, or_self, Bool.false_eq_true]
  rw [size]
  rcases rest with _ | ⟨first, _ | ⟨second, _ | ⟨third, rest⟩⟩⟩
  · exact .pure _
  · have value : operandOf [first] = [(first.toNat : Int)] := by simp [operandOf, number]
    rw [value]
    exact ((reads_u1 first).map fun b => (b.toNat : Int)).bind_nil (.pure _)
  · have small := number_pair_lt first second
    have value : operandOf [first, second] =
        [((UInt16.ofNat (number [first, second])).toNat : Int)] := by
      rw [UInt16.toNat_ofNat_of_lt' small]
      rfl
    rw [value]
    have reads : Reads (pc + 1) u2 [first, second] (UInt16.ofNat (number [first, second])) :=
      (reads_bytes rfl).map _
    exact (reads.map fun n => (n.toNat : Int)).bind_nil (.pure _)
  · simp only [length_cons] at few
    omega

theorem encodes_bipush (low : -128 ≤ n) (high : n ≤ 127) :
    Encodes [bipush.code, byteOfInt n] { pc, op := .bipush, args := [n] } := by
  obtain ⟨known, size⟩ := operandBytes_special (.bipush, 1) (by decide)
  refine encodes_plain known (by decide) ?_ size
  exact (reads_s1 low high).bind_nil (.pure _)

theorem encodes_sipush (low : -32768 ≤ n) (high : n ≤ 32767) :
    Encodes (sipush.code :: u2OfInt n) { pc, op := .sipush, args := [n] } := by
  obtain ⟨known, size⟩ := operandBytes_special (.sipush, 2) (by decide)
  refine encodes_plain known (by decide) ?_ size
  exact (reads_s2 low high).bind_nil (.pure _)

theorem encodes_iinc (slot : UInt8) (low : -128 ≤ n) (high : n ≤ 127) :
    Encodes [iinc.code, slot, byteOfInt n]
      { pc, op := .iinc, args := [(slot.toNat : Int), n] } := by
  obtain ⟨known, size⟩ := operandBytes_special (.iinc, 2) (by decide)
  refine encodes_plain known (by decide) ?_ size
  refine ((reads_u1 slot).map fun b => (b.toNat : Int)).bind ?_
  exact (reads_s1 low high).bind_nil (.pure _)

theorem encodes_invokeinterface (index : UInt16) (count : UInt8) :
    Encodes (invokeinterface.code :: Jvm.u2 index ++ [count, 0])
      { pc, op := .invokeinterface, args := [(index.toNat : Int)] } := by
  obtain ⟨known, size⟩ := operandBytes_special (.invokeinterface, 4) (by decide)
  refine encodes_plain known (by decide) ?_ size
  refine ((reads_u2 index).map fun n => (n.toNat : Int)).bind ?_
  refine (reads_u1 count).bind ?_
  exact (reads_u1 0).bind_nil (.pure _)

theorem encodes_multianewarray (index : UInt16) (dims : UInt8) :
    Encodes (multianewarray.code :: Jvm.u2 index ++ [dims])
      { pc, op := .multianewarray, args := [(index.toNat : Int), (dims.toNat : Int)] } := by
  obtain ⟨known, size⟩ := operandBytes_special (.multianewarray, 3) (by decide)
  refine encodes_plain known (by decide) ?_ size
  refine ((reads_u2 index).map fun n => (n.toNat : Int)).bind ?_
  exact ((reads_u1 dims).map fun b => (b.toNat : Int)).bind_nil (.pure _)

theorem encodes_branch (branch : o.isBranch = true) (low : -32768 ≤ offset) (high : offset ≤ 32767) :
    Encodes (o.code :: u2OfInt offset) { pc, op := o, args := [(pc : Int) + offset] } := by
  obtain ⟨known, other, size⟩ := form_of_isBranch o branch
  simp only [special, mem_cons, not_mem_nil, or_false, not_or] at other
  refine encodes_plain known other.2.2.2.2.2.2.2.2 ?_ size
  simp only [plainArgs, other, branch, if_true, if_false, or_self]
  exact (reads_s2 low high).bind_nil (.pure _)

theorem encodes_gotoW (low : -2147483648 ≤ offset) (high : offset ≤ 2147483647) :
    Encodes (gotoW.code :: u4OfInt offset) { pc, op := .gotoW, args := [(pc : Int) + offset] } := by
  obtain ⟨known, size⟩ := operandBytes_special (.gotoW, 4) (by decide)
  refine encodes_plain known (by decide) ?_ size
  exact (reads_s4 low high).bind_nil (.pure _)

end Forms

/-! ## Switches -/

section Switches

variable {pc : Nat}

theorem reads_align4 (fuel : Nat) (few : (4 - pc % 4) % 4 ≤ fuel) :
    Reads pc (align4 fuel) (replicate ((4 - pc % 4) % 4) 0) () := by
  induction fuel generalizing pc with
  | zero =>
    rw [Nat.le_zero.mp few]
    exact .pure ()
  | succ fuel ih =>
    refine reads_get fun s before => ?_
    refine reads_isFine.nil_bind ?_
    rw [before.off, Bool.and_true]
    by_cases aligned : pc % 4 = 0
    · simp only [aligned]
      exact .pure ()
    · have more : (4 - pc % 4) % 4 = 1 + (4 - (pc + 1) % 4) % 4 := by omega
      rw [if_pos (by simpa using aligned), more, replicate_add]
      have onward : Reads (pc + 1) (align4 fuel) _ () := ih (by omega)
      exact (reads_u1 0).bind onward

theorem reads_offset {target : Nat} (low : base ≤ 65535) (near : target ≤ 65535) :
    Reads pc s4 (u4OfInt ((target : Int) - base)) ((target : Int) - base) :=
  reads_s4 (by omega) (by omega)

theorem add_offset (base target : Nat) : (base : Int) + ((target : Int) - base) = target := by omega

theorem reads_tableCases (low : base ≤ 65535) (near : ∀ target ∈ targets, target ≤ 65535)
    (key : Int) :
    Reads pc (tableCases base targets.length key)
      (targets.flatMap fun (target : Nat) => u4OfInt ((target : Int) - base))
      (tableArgs key targets) := by
  induction targets generalizing pc key with
  | nil => exact .pure []
  | cons target targets ih =>
    obtain ⟨here, later⟩ := forall_mem_cons.mp near
    refine reads_isFine.nil_bind ?_
    refine (reads_offset low here).bind ?_
    rw [add_offset]
    exact (ih later (key + 1)).bind_nil (.pure _)

theorem reads_lookupCases (low : base ≤ 65535) {branches : List (Int × Nat)}
    (near : ∀ branch ∈ branches, (-2147483648 ≤ branch.1 ∧ branch.1 ≤ 2147483647) ∧
      branch.2 ≤ 65535) :
    Reads pc (lookupCases base branches.length)
      (branches.flatMap fun branch => u4OfInt branch.1 ++ u4OfInt ((branch.2 : Int) - base))
      (branches.flatMap fun branch => [branch.1, (branch.2 : Int)]) := by
  induction branches generalizing pc with
  | nil => exact .pure []
  | cons branch branches ih =>
    obtain ⟨⟨key, here⟩, later⟩ := forall_mem_cons.mp near
    refine reads_isFine.nil_bind ?_
    rw [flatMap_cons, append_assoc]
    refine (reads_s4 key.1 key.2).bind ?_
    refine (reads_offset low here).bind ?_
    rw [add_offset]
    exact (ih later).bind_nil (.pure _)

theorem length_offsets (base : Nat) (targets : List Nat) :
    (targets.flatMap fun (target : Nat) => u4OfInt ((target : Int) - base)).length =
      4 * targets.length := by
  induction targets with
  | nil => rfl
  | cons target targets ih =>
    rw [flatMap_cons, length_append, ih, length_cons]
    change 4 + _ = _
    omega

theorem length_branches (base : Nat) (branches : List (Int × Nat)) :
    (branches.flatMap fun branch => u4OfInt branch.1 ++ u4OfInt ((branch.2 : Int) - base)).length =
      8 * branches.length := by
  induction branches with
  | nil => rfl
  | cons branch branches ih =>
    rw [flatMap_cons, length_append, ih, length_cons]
    change 8 + _ = _
    omega

theorem encodes_tableswitch (low : pc ≤ 65535) (near : default ≤ 65535)
    (nears : ∀ target ∈ targets, target ≤ 65535) (filled : targets ≠ []) {first : Int}
    (least : -2147483648 ≤ first) (greatest : first + targets.length - 1 ≤ 2147483647) :
    Encodes (tableswitch.code :: replicate (switchPadding pc) 0 ++
        u4OfInt ((default : Int) - pc) ++ u4OfInt first ++ u4OfInt (first + targets.length - 1) ++
        targets.flatMap fun (target : Nat) => u4OfInt ((target : Int) - pc))
      { pc, op := .tableswitch, args := (default : Int) :: tableArgs first targets } := by
  have count : 0 < targets.length := length_pos_iff.mpr filled
  simp only [cons_append, append_assoc]
  refine ⟨reads_switch (.inl rfl) fun size room => ?_, ?_⟩
  · have bound : targets.length ≤ size := by
      simp only [length_append, length_offsets] at room
      omega
    refine (reads_align4 3 (by omega)).bind ?_
    refine (reads_offset low near).bind ?_
    simp only [if_true]
    refine (reads_s4 least (by omega)).bind ?_
    refine (reads_s4 (by omega) greatest).bind ?_
    rw [if_neg (by omega), add_offset,
      show (first + targets.length - 1 - first + 1).toNat = targets.length by omega]
    exact (reads_tableCases low nears first).bind_nil (.pure _)
  · simp only [Instruction.length, Bool.false_eq_true, if_false, if_true, length_cons,
      length_append, length_replicate, length_offsets, length_tableArgs]
    change switchPadding pc + (4 + (4 + (4 + 4 * targets.length))) + 1 = _
    omega

theorem encodes_lookupswitch (low : pc ≤ 65535) (near : default ≤ 65535)
    {branches : List (Int × Nat)} (few : branches.length ≤ 65535)
    (nears : ∀ branch ∈ branches, (-2147483648 ≤ branch.1 ∧ branch.1 ≤ 2147483647) ∧
      branch.2 ≤ 65535) :
    Encodes (lookupswitch.code :: replicate (switchPadding pc) 0 ++
        u4OfInt ((default : Int) - pc) ++ u4OfNat branches.length ++
        branches.flatMap fun branch => u4OfInt branch.1 ++ u4OfInt ((branch.2 : Int) - pc))
      { pc, op := .lookupswitch, args := (default : Int) ::
        branches.flatMap fun branch => [branch.1, (branch.2 : Int)] } := by
  have number : u4OfNat branches.length = u4OfInt branches.length := by
    rw [u4OfNat, u4OfInt, Int.emod_eq_of_lt (by omega) (by omega), Int.toNat_natCast]
  simp only [cons_append, append_assoc, number]
  refine ⟨reads_switch (.inr rfl) fun size room => ?_, ?_⟩
  · have bound : branches.length ≤ size := by
      simp only [length_append, length_branches] at room
      omega
    refine (reads_align4 3 (by omega)).bind ?_
    refine (reads_offset low near).bind ?_
    rw [if_neg (by decide)]
    refine (reads_s4 (n := (branches.length : Int)) (by omega) (by omega)).bind ?_
    rw [if_neg (by omega), add_offset, Int.toNat_natCast]
    exact (reads_lookupCases low nears).bind_nil (.pure _)
  · have cases : (branches.flatMap fun branch => [branch.1, (branch.2 : Int)]).length =
        2 * branches.length := by
      simp [length_flatMap, Nat.mul_comm]
    have other : lookupswitch ≠ .tableswitch := by decide
    simp only [Instruction.length, Bool.false_eq_true, if_false, other, if_true, length_cons,
      length_append, length_replicate, length_branches, cases]
    change switchPadding pc + (4 + (4 + 8 * branches.length)) + 1 = _
    omega

end Switches

/-! ## Code -/

/-- Bytes that are put together from those of instructions, from an address on. -/
inductive Decodes : Nat → List UInt8 → List Instruction → Prop where
  | done (pc : Nat) : Decodes pc [] []
  | step {i : Instruction} {piece more : List UInt8} {rest : List Instruction}
      (first : Encodes piece i) (behind : Decodes (i.pc + piece.length) more rest) :
      Decodes i.pc (piece ++ more) (i :: rest)

theorem Encodes.decodes (encodes : Encodes bytes i) : Decodes i.pc bytes [i] := by
  have one := Decodes.step encodes (.done _)
  rwa [append_nil] at one

section Code

variable {pc : Nat} {bytes more : List UInt8} {found rest : List Instruction}

theorem Decodes.append (first : Decodes pc bytes found)
    (second : Decodes (pc + bytes.length) more rest) :
    Decodes pc (bytes ++ more) (found ++ rest) := by
  induction first with
  | done pc => exact second
  | @step i piece bytes found encodes behind ih =>
    rw [append_assoc]
    refine .step encodes (ih ?_)
    rwa [length_append, ← Nat.add_assoc] at second

theorem Decodes.tiles (decodes : Decodes pc bytes found) : Tiles pc found (pc + bytes.length) := by
  induction decodes with
  | done pc => exact .done pc
  | @step i piece more found encodes behind ih =>
    refine .step i ?_
    rwa [← encodes.size, length_append, ← Nat.add_assoc]

theorem run_instructions_end (ended : s.off = s.data.size) (fuel : Nat) :
    (instructions (fuel + 1)).run s = (([], none), s) := by
  have test : (decide (s.off ≥ s.data.size) || s.failure.isSome) = true := by simp [ended]
  simp only [instructions, StateT.run_bind, StateT.run_get, pure_bind, test, if_true]
  rfl

theorem run_instructions_step {next : Scanner} {fuel : Nat} (inside : s.off < s.data.size)
    (fine : s.failure = none) (first : instruction.run s = (.ok i, next)) :
    (instructions (fuel + 1)).run s =
      let ((rest, failure), last) := (instructions fuel).run next
      ((i :: rest, failure), last) := by
  have test : (decide (s.off ≥ s.data.size) || s.failure.isSome) = false := by
    simp [fine, inside]
  rw [instructions, StateT.run_bind, StateT.run_get, pure_bind, if_neg (by simp [test]),
    StateT.run_bind, first]
  rfl

theorem Decodes.run (decodes : Decodes pc bytes found) (before : Before s pc bytes)
    (all : pc + bytes.length = s.data.size) {fuel : Nat} (enough : bytes.length < fuel) :
    (instructions fuel).run s = ((found, none), { s with off := s.data.size }) := by
  induction decodes generalizing s fuel with
  | done pc =>
    cases fuel with
    | zero => cases enough
    | succ fuel =>
      have ended : s.off = s.data.size := before.off.trans all
      rw [run_instructions_end ended, ← ended]
  | @step i piece more found encodes behind ih =>
    cases fuel with
    | zero => cases enough
    | succ fuel =>
      have pos := i.length_pos
      rw [← encodes.size] at pos
      rw [length_append] at all enough
      have inside : s.off < s.data.size := by
        rw [before.off]
        omega
      rw [run_instructions_step inside before.fine (encodes.reads s before.left),
        ih before.right (by rwa [Nat.add_assoc]) (by omega)]

theorem Decodes.disassemble (decodes : Decodes 0 bytes found) :
    disassemble ⟨bytes.toArray⟩ = (found, none) := by
  have before : Before { data := ⟨bytes.toArray⟩ } 0 bytes := by
    refine ⟨rfl, rfl, Nat.zero_le _, ?_⟩
    simp
  have all : 0 + bytes.length = (⟨bytes.toArray⟩ : ByteArray).size := Nat.zero_add _
  have enough : bytes.length < (⟨bytes.toArray⟩ : ByteArray).size + 1 := Nat.lt_succ_self _
  rw [Jvm.disassemble, decodes.run before all enough]
  rfl

end Code


end Scan

end DexLift.Jvm
