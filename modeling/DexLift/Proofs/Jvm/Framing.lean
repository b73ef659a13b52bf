import DexLift.Proofs.Jvm.Agreement
import DexLift.Proofs.Jvm.Frames

/-!
# Frames where control arrives

The verifier wants a frame wherever a jump, a switch or an exception may lead and
behind every instruction that control does not run on from. Frames that are recorded
at labels and behind such instructions end up at the right addresses of the stack map.
There is one exception: a conditional jump that is too far is laid out as the opposite
jump over a long one, and for the address behind the long jump nobody has recorded a
frame.
-/

namespace DexLift.Jvm

open List Opcode
open Call (MarkedBefore FramedBefore appended)

/-! ## Where control goes -/

variable {call : Call} {i : Instruction} {family start stop place : Nat} {t : Int}
  {groups : List (List Instruction)} {group : List Instruction} {calls : List Call}

/-- The addresses among the keys and addresses of a switch. -/
def caseTargets : List Int → List Int
  | _ :: target :: rest => target :: caseTargets rest
  | _ => []

/-- The addresses that an instruction may jump to. -/
def Instruction.targets (i : Instruction) : List Int :=
  if i.op = .tableswitch ∨ i.op = .lookupswitch then i.args.take 1 ++ caseTargets (i.args.drop 1)
  else if i.op.isBranch ∨ i.op = .gotoW ∨ i.op = .jsrW then i.args
  else []

/-- Whether control does not run on behind an instruction. -/
def Opcode.transfers (o : Opcode) : Bool :=
  o ∈ [.goto, .gotoW, .tableswitch, .lookupswitch] || o.leaves

def Code.frameOffsets (code : Code) : Outcome (List Nat) :=
  match code.stackMap with
  | none => .ok []
  | some bytes => Jvm.frameOffsets ⟨bytes.toArray⟩

theorem caseTargets_tableArgs (key : Int) (targets : List Nat) :
    caseTargets (tableArgs key targets) = targets.map fun (n : Nat) => (n : Int) := by
  induction targets generalizing key with
  | nil => rfl
  | cons target targets ih =>
    rw [tableArgs, caseTargets, ih, map_cons]

theorem caseTargets_branches (at_ : CodeLabel → Nat) (branches : List (Int32 × CodeLabel)) :
    caseTargets (branches.flatMap fun branch => [branch.1.toInt, (at_ branch.2 : Int)]) =
      branches.map fun branch => (at_ branch.2 : Int) := by
  induction branches with
  | nil => rfl
  | cons branch branches ih =>
    rw [flatMap_cons, map_cons, ← ih]
    rfl

/-! ## What calls show -/

/-- Whether an opcode has an address to go to. -/
def Opcode.isFlow (o : Opcode) : Bool :=
  o ∈ [.tableswitch, .lookupswitch, .gotoW, .jsrW] || o.isBranch

/-- Whether control goes on to the next instruction. -/
def Opcode.runsOn (o : Opcode) : Bool := !o.isFlow && !o.leaves

def Call.isFlow : Call → Bool
  | jump _ _ | tableSwitch _ _ _ | lookupSwitch _ _ _ | switch _ _ _ => true
  | _ => false

/-- An instruction that goes nowhere and leaves the method only when its call does. -/
structure Quiet (call : Call) (i : Instruction) : Prop where
  stays : i.op.isFlow = false
  leaves : i.op.leaves = true → call.transfers = true

theorem quiet_of_runsOn (runsOn : i.op.runsOn = true) : Quiet call i := by
  simp only [Opcode.runsOn, Bool.and_eq_true, Bool.not_eq_true'] at runsOn
  refine ⟨runsOn.1, fun leaves => ?_⟩
  rw [runsOn.2] at leaves
  cases leaves

theorem valueFamily_lt {desc : Text} (typed : valueFamily desc = some family) : family < 5 := by
  obtain ⟨b, -, rfl⟩ := Option.map_eq_some_iff.mp typed
  split_ifs <;> decide

theorem quiet_of_accesses {base short : Opcode} {slot : UInt16}
    (accesses : Accesses base short family slot i) (few : family < 5)
    (long : ∀ n < 5, (base.plus n).runsOn = true) (built : ∀ n < 20, (short.plus n).runsOn = true) :
    Quiet call i := by
  cases accesses with
  | builtIn pc small => exact quiet_of_runsOn (built _ (by omega))
  | operand pc isWide => exact quiet_of_runsOn (long _ few)

theorem quiet_of_pushes {isIt : UInt16 → Prop} (pushes : Pushes isIt i) : Quiet call i := by
  cases pushes with
  | ldc pc o form =>
    have all : ∀ o, o = ldc ∨ o = .ldcW → o.runsOn = true := by
      rintro o (rfl | rfl) <;> decide
    exact quiet_of_runsOn (all o form)

theorem quiet_of_element {base : Opcode} {element : Text}
    (typed : elementOpcode base element = some i.op) (all : ∀ n < 8, (base.plus n).runsOn = true) :
    Quiet call i := by
  obtain ⟨b, -, op⟩ := Option.map_eq_some_iff.mp typed
  refine quiet_of_runsOn ?_
  rw [← op]
  cases place : elementPlace b with
  | none => exact (by decide : nop.runsOn = true)
  | some n => exact all n (Asm.elementPlace_lt place)

section Shows

variable {p : Pool} {stands : Standing} {call : Call} {group : List Instruction}

theorem Shows.quiet (shows : Shows p stands call group) (proper : call.isProper = true)
    (straight : call.isFlow = false) : ∃ i, group = [i] ∧ Quiet call i := by
  cases shows with
  | op pc o =>
    simp only [Call.isProper, Bool.and_eq_true, beq_iff_eq] at proper
    have stays : ∀ o : Opcode, o.isOrdinary = true → o.operandSize = 0 → o.isFlow = false :=
      forall_of_codes (by decide +kernel)
    exact ⟨_, rfl, stays o proper.1 (o.operandBytes_eq_operandSize.symm.trans proper.2), id⟩
  | iconst pc n small =>
    have built : ∀ k < 7, (⟨byteOfInt ((k : Nat) + 2)⟩ : Opcode).runsOn = true := by decide
    obtain ⟨k, few, code⟩ : ∃ k : Nat, k < 7 ∧ 3 + n.toInt = (k : Nat) + 2 :=
      ⟨(n.toInt + 1).toNat, by omega, by omega⟩
    rw [code]
    exact ⟨_, rfl, quiet_of_runsOn (built k few)⟩
  | int _ i pushes | float _ i pushes | string _ i pushes | classConst _ i pushes =>
    exact ⟨i, rfl, quiet_of_pushes pushes⟩
  | lconst pc bits small =>
    have all : ∀ bits : UInt64, bits = 0 ∨ bits = 1 →
        (lconst0.plus bits.toNat).runsOn = true := by
      rintro bits (rfl | rfl) <;> decide
    exact ⟨_, rfl, quiet_of_runsOn (all bits small)⟩
  | fconst pc n bits value =>
    have few : n < 3 := by
      simp only [mem_cons, Prod.mk.injEq, not_mem_nil, or_false] at value
      omega
    have all : ∀ n < 3, (fconst0.plus n).runsOn = true := by decide
    exact ⟨_, rfl, quiet_of_runsOn (all n few)⟩
  | dconst pc n bits value =>
    have few : n < 2 := by
      simp only [mem_cons, Prod.mk.injEq, not_mem_nil, or_false] at value
      omega
    have all : ∀ n < 2, (dconst0.plus n).runsOn = true := by decide
    exact ⟨_, rfl, quiet_of_runsOn (all n few)⟩
  | load _ _ _ typed i accesses | store _ _ _ typed i accesses =>
    exact ⟨i, rfl, quiet_of_accesses accesses (valueFamily_lt typed) (by decide) (by decide)⟩
  | return_ pc =>
    have stays : Opcode.return_.isFlow = false := by decide
    exact ⟨_, rfl, stays, fun _ => rfl⟩
  | returnValue pc desc value family typed =>
    have all : ∀ n < 5, (ireturn.plus n).isFlow = false := by decide
    exact ⟨_, rfl, all _ (valueFamily_lt typed), fun _ => rfl⟩
  | arrayLoad _ _ _ typed | arrayStore _ _ _ typed =>
    exact ⟨_, rfl, quiet_of_element typed (by decide)⟩
  | field pc o =>
    have all : ∀ o ∈ [getstatic, .putstatic, .getfield, .putfield], o.runsOn = true := by decide
    exact ⟨_, rfl, quiet_of_runsOn (all o (of_decide_eq_true proper))⟩
  | invoke pc o =>
    have all : ∀ o ∈ [invokevirtual, .invokespecial, .invokestatic, .invokeinterface],
        o.runsOn = true := by decide
    exact ⟨_, rfl, quiet_of_runsOn (all o (of_decide_eq_true proper))⟩
  | typeOp pc o =>
    have all : ∀ o ∈ [new, .anewarray, .checkcast, .instanceof], o.runsOn = true := by decide
    exact ⟨_, rfl, quiet_of_runsOn (all o (of_decide_eq_true proper))⟩
  | jump | gotoW | skipping | tableSwitch | lookupSwitch | sparse | dense => cases straight
  | bipush => exact ⟨_, rfl, quiet_of_runsOn (by decide : Opcode.bipush.runsOn = true)⟩
  | sipush => exact ⟨_, rfl, quiet_of_runsOn (by decide : Opcode.sipush.runsOn = true)⟩
  | long | double => exact ⟨_, rfl, quiet_of_runsOn (by decide : ldc2W.runsOn = true)⟩
  | null => exact ⟨_, rfl, quiet_of_runsOn (by decide : aconstNull.runsOn = true)⟩
  | increment => exact ⟨_, rfl, quiet_of_runsOn (by decide : iinc.runsOn = true)⟩
  | newarray => exact ⟨_, rfl, quiet_of_runsOn (by decide : Opcode.newarray.runsOn = true)⟩
  | anewarray => exact ⟨_, rfl, quiet_of_runsOn (by decide : Opcode.anewarray.runsOn = true)⟩
  | multiArray =>
    exact ⟨_, rfl, quiet_of_runsOn (by decide : multianewarray.runsOn = true)⟩

theorem targets_of_isFlow (stays : i.op.isFlow = false) : i.targets = [] := by
  simp only [isFlow, mem_cons, not_mem_nil, or_false, Bool.or_eq_false_iff,
    decide_eq_false_iff_not, not_or] at stays
  obtain ⟨⟨noTable, noLookup, noGoto, noJsr⟩, noBranch⟩ := stays
  simp [Instruction.targets, noTable, noLookup, noGoto, noJsr, noBranch]

theorem targets_subset_of_single {address : Int} (single : i.args = [address])
    (target : t ∈ i.targets) : t = address := by
  unfold Instruction.targets at target
  rw [single] at target
  split at target
  · simpa [caseTargets] using target
  · split at target
    · exact mem_singleton.mp target
    · cases target

theorem targets_table (at_ : CodeLabel → Nat) (pc : Nat) (low : Int) (targets : List CodeLabel)
    (default : CodeLabel) : (Instruction.table at_ pc low targets default).targets =
      (default :: targets).map fun l => (at_ l : Int) := by
  simp only [Instruction.targets, Instruction.table, true_or, if_true, take_succ_cons,
    take_zero, drop_succ_cons, drop_zero, caseTargets_tableArgs, map_map,
    singleton_append, map_cons]
  rfl

theorem targets_lookup (at_ : CodeLabel → Nat) (pc : Nat) (branches : List (Int32 × CodeLabel))
    (default : CodeLabel) : (Instruction.lookup at_ pc branches default).targets =
      (default :: branches.map Prod.snd).map fun l => (at_ l : Int) := by
  simp only [Instruction.targets, Instruction.lookup, or_true, if_true, take_succ_cons,
    take_zero, drop_succ_cons, drop_zero, caseTargets_branches, map_map,
    singleton_append, map_cons]
  rfl

theorem targetOf_mem (keys : List Int32) (targets : List CodeLabel) (default : CodeLabel)
    (key : Int) : targetOf (keys.zip targets) default key ∈ default :: targets := by
  unfold targetOf
  cases found : (keys.zip targets).reverse.find? fun branch => branch.1.toInt == key with
  | none => exact mem_cons_self
  | some branch =>
    have member := mem_reverse.mp (mem_of_find?_eq_some found)
    exact .tail _ (of_mem_zip member).2

def Leads (stands : Standing) (call : Call) (t : Int) : Prop :=
  ∃ l ∈ call.destinations, ∃ address : Nat, stands l address ∧ t = address

theorem leads_of_switch {at_ : CodeLabel → Nat} {labels : List CodeLabel}
    (there : ∀ l ∈ labels, stands l (at_ l)) (asked : labels ⊆ call.destinations)
    (target : t ∈ labels.map fun l => (at_ l : Int)) : Leads stands call t := by
  obtain ⟨l, member, rfl⟩ := mem_map.mp target
  exact ⟨l, asked member, at_ l, there l member, rfl⟩

theorem branches_subset {branches : List (Int32 × CodeLabel)} {keys : List Int32}
    {targets : List CodeLabel} (same : branches.Perm (keys.zip targets)) (default : CodeLabel) :
    default :: branches.map Prod.snd ⊆ default :: targets := by
  refine cons_subset_cons _ fun l member => ?_
  obtain ⟨branch, listed, rfl⟩ := mem_map.mp member
  exact (of_mem_zip (same.mem_iff.mp listed)).2

/-- A group shows where the destinations of its call stand, and in front of a long jump on a
condition the address behind it. -/
theorem Shows.leads (shows : Shows p stands call group) (proper : call.isProper = true)
    (member : i ∈ group) (target : t ∈ i.targets) :
    Leads stands call t ∨ ∃ first second, group = [first, second] ∧ t = second.pc + 5 := by
  by_cases straight : call.isFlow = false
  · obtain ⟨j, rfl, quiet⟩ := shows.quiet proper straight
    rw [mem_singleton.mp member, targets_of_isFlow quiet.stays] at target
    cases target
  cases shows with
  | jump pc o l address there | gotoW pc l address there =>
    refine .inl ⟨l, mem_cons_self, address, there, ?_⟩
    rw [mem_singleton.mp member] at target
    exact targets_subset_of_single rfl target
  | skipping pc o other l address there =>
    rcases mem_cons.mp member with rfl | last
    · refine .inr ⟨_, _, rfl, ?_⟩
      rw [targets_subset_of_single rfl target]
      push_cast
      omega
    · refine .inl ⟨l, mem_cons_self, address, there, ?_⟩
      rw [mem_singleton.mp last] at target
      exact targets_subset_of_single rfl target
  | tableSwitch pc low targets default at_ there =>
    rw [mem_singleton.mp member, targets_table] at target
    exact .inl (leads_of_switch there (Subset.refl _) target)
  | lookupSwitch pc keys targets default branches same sorted at_ there
  | sparse pc keys targets default branches same sorted at_ there =>
    rw [mem_singleton.mp member, targets_lookup] at target
    refine .inl (leads_of_switch there ?_ target)
    exact branches_subset same default
  | dense pc keys targets default low table isTable at_ there =>
    rw [mem_singleton.mp member, targets_table] at target
    refine .inl (leads_of_switch there ?_ target)
    intro l listed
    rcases mem_cons.mp listed with rfl | entry
    · exact mem_cons_self
    · obtain ⟨k, found⟩ := getElem?_of_mem entry
      rw [isTable.target k l found]
      exact targetOf_mem keys targets default _
  | _ => exact absurd rfl straight

theorem Opcode.leaves_of_transfers : ∀ o : Opcode, o.isFlow = false → o.transfers = true →
    o.leaves = true :=
  forall_of_codes (by decide +kernel)

theorem Opcode.eq_goto_of_transfers : ∀ o : Opcode, o.isBranch = true → o.transfers = true →
    o = goto :=
  forall_of_branches (by decide)

/-- Control runs on behind what a group shows, unless it does not run on behind its call or the
group ends with the long jump of one on a condition. -/
theorem Shows.transfers (shows : Shows p stands call group) (proper : call.isProper = true)
    (member : i ∈ group) (ends : i.op.transfers = true) :
    group = [i] ∧ call.transfers = true ∨ ∃ first, group = [first, i] ∧ i.length = 5 := by
  by_cases straight : call.isFlow = false
  · obtain ⟨j, rfl, quiet⟩ := shows.quiet proper straight
    obtain rfl := mem_singleton.mp member
    exact .inl ⟨rfl, quiet.leaves (i.op.leaves_of_transfers quiet.stays ends)⟩
  cases shows with
  | jump pc o l address there =>
    obtain rfl := mem_singleton.mp member
    simp only [Call.isProper, Bool.and_eq_true, bne_iff_ne] at proper
    exact .inl ⟨rfl, beq_iff_eq.mpr (o.eq_goto_of_transfers proper.1 ends)⟩
  | gotoW | tableSwitch | lookupSwitch | sparse | dense =>
    obtain rfl := mem_singleton.mp member
    exact .inl ⟨rfl, rfl⟩
  | skipping pc o other l address there opposite =>
    rcases mem_cons.mp member with rfl | last
    · obtain ⟨branch, conditional⟩ := Opcode.branch_of_isOpposite opposite
      exact absurd (other.eq_goto_of_transfers branch ends) conditional
    · obtain rfl := mem_singleton.mp last
      have size : Opcode.gotoW.operandBytes = 4 :=
        (Opcode.operandBytes_special (.gotoW, 4) (by decide)).2
      have noTable : Opcode.gotoW ≠ .tableswitch := by decide
      have noLookup : Opcode.gotoW ≠ .lookupswitch := by decide
      refine .inr ⟨_, rfl, ?_⟩
      rw [Instruction.length, if_neg noTable, if_neg noLookup, size]
      exact if_neg Bool.false_ne_true
  | _ => exact absurd rfl straight

theorem Shows.ne_nil (shows : Shows p stands call group) : group ≠ [] := by
  cases shows <;> exact cons_ne_nil _ _

end Shows

/-! ## Where groups begin and end -/

theorem Tiles.split {first second : List Instruction} (tiles : Tiles start (first ++ second) stop) :
    ∃ middle, Tiles start first middle ∧ Tiles middle second stop := by
  induction first generalizing start with
  | nil => exact ⟨start, .done start, tiles⟩
  | cons i first ih =>
    cases tiles with
    | step _ behind =>
      obtain ⟨middle, left, right⟩ := ih behind
      exact ⟨middle, .step i left, right⟩

theorem head_starts {pc : Nat} (filled : ∀ group ∈ groups, group ≠ [])
    (tiles : Tiles pc groups.flatten stop) : (starts groups stop)[0]? = some pc := by
  cases groups with
  | nil =>
    cases tiles
    rfl
  | cons group groups =>
    obtain ⟨i, rest, rfl⟩ := exists_cons_of_ne_nil (filled group mem_cons_self)
    cases tiles
    rfl

theorem tiles_group {pc : Nat} (filled : ∀ group ∈ groups, group ≠ [])
    (tiles : Tiles pc groups.flatten stop) (here : groups[place]? = some group) :
    ∃ start next, (starts groups stop)[place]? = some start ∧
      (starts groups stop)[place + 1]? = some next ∧ Tiles start group next := by
  induction groups generalizing pc place with
  | nil => cases here
  | cons first groups ih =>
    obtain ⟨middle, left, right⟩ := Tiles.split tiles
    have later : ∀ group ∈ groups, group ≠ [] := fun group member =>
      filled group (.tail _ member)
    cases place with
    | zero =>
      cases here
      exact ⟨pc, middle, head_starts filled tiles, head_starts later right, left⟩
    | succ place => exact ih later right here

theorem Tiles.eq_of_nil (tiles : Tiles start [] stop) : start = stop := by
  cases tiles
  rfl

theorem Tiles.eq_of_single (tiles : Tiles start [i] stop) : i.pc + i.length = stop := by
  cases tiles with
  | step _ behind => exact behind.eq_of_nil

/-! ## Frames -/

/-- Frames are recorded where control arrives: at the labels that it may go to, and behind the
calls that it does not run on from. -/
structure FramesRecorded (calls : List Call) : Prop where
  fits : ∀ f, Call.frame f ∈ calls → f.Fits
  labels : ∀ call ∈ calls, ∀ l ∈ call.destinations, ∀ place < appended calls,
    MarkedBefore calls l place → FramedBefore calls place
  behind : ∀ k call, calls[k]? = some call → call.transfers = true →
    appended (calls.take (k + 1)) < appended calls →
    FramedBefore calls (appended (calls.take (k + 1)))

/-- The address behind the long jump that a jump on a condition was made into. -/
def Skipped (groups : List (List Instruction)) (address : Nat) : Prop :=
  ∃ first second, [first, second] ∈ groups ∧ second.pc + 5 = address

theorem Call.exists_of_filter (here : (calls.filter Call.appends)[place]? = some call) :
    ∃ k, calls[k]? = some call ∧ appended (calls.take (k + 1)) = place + 1 := by
  induction calls generalizing place with
  | nil => cases here
  | cons first calls ih =>
    have more : ∀ k, appended ((first :: calls).take (k + 2)) =
        appended (calls.take (k + 1)) + if first.appends then 1 else 0 := by
      intro k
      rw [take_succ_cons, appended, countP_cons]
      rfl
    by_cases adding : first.appends = true
    · rw [filter_cons_of_pos adding] at here
      cases place with
      | zero =>
        refine ⟨0, here, ?_⟩
        rw [take_succ_cons, take_zero, appended, countP_singleton, if_pos adding]
      | succ place =>
        obtain ⟨k, found, count⟩ := ih here
        exact ⟨k + 1, found, by rw [more, count, if_pos adding]⟩
    · rw [filter_cons_of_neg adding] at here
      obtain ⟨k, found, count⟩ := ih here
      exact ⟨k + 1, found, by rw [more, count, if_neg adding]⟩

theorem Rows.exists_isFor {p : Pool} {stands : Standing} {catchers : List Catcher}
    {rows : List ExceptionEntry} (table : Rows p stands catchers rows) {e : ExceptionEntry}
    (member : e ∈ rows) : ∃ c ∈ catchers, e.IsFor p stands c := by
  induction table with
  | nil => cases member
  | empty _ _ _ _ _ _ ih =>
    obtain ⟨c, listed, isFor⟩ := ih member
    exact ⟨c, .tail _ listed, isFor⟩
  | @row c _ _ _ isFor _ _ ih =>
    rcases mem_cons.mp member with rfl | later
    · exact ⟨c, mem_cons_self, isFor⟩
    · obtain ⟨c, listed, isFor⟩ := ih later
      exact ⟨c, .tail _ listed, isFor⟩

section Assembled

variable {calls : List Call} {code : Code} {q : Pool} {a : Assembler} {laid : List Item}
  {at_ : CodeLabel → Nat} {groups : List (List Instruction)}

def Assembler.framesOf (a : Assembler) (groups : List (List Instruction)) (stop : Nat) :
    List (Nat × Frame) :=
  Assembler.byAddress (starts groups stop).toArray stop a.frames.toList

section

variable (assembled : Assembled calls code q a laid at_ groups)

include assembled

theorem Assembled.lt_iff {address : Nat}
    (here : (starts groups code.bytecode.length)[place]? = some address) :
    address < code.bytecode.length ↔ place < laid.length := by
  obtain ⟨bound, found⟩ := List.getElem?_eq_some_iff.mp here
  have length : (starts groups code.bytecode.length).length = laid.length + 1 := by
    rw [starts, length_append, length_map, assembled.count, length_singleton]
  have last := assembled.finished.stop_eq
  rw [getLast?_eq_getElem?, length, Nat.add_sub_cancel] at last
  constructor
  · intro inside
    refine Nat.lt_of_le_of_ne (by omega) ?_
    rintro rfl
    rw [here] at last
    cases last
    exact Nat.lt_irrefl _ inside
  · intro before
    obtain ⟨ends, ending⟩ := List.getElem?_eq_some_iff.mp last
    have less := pairwise_iff_getElem.mp assembled.apart place laid.length bound ends before
    rwa [found, ending] at less

theorem Assembled.exists_call (here : groups[place]? = some group) :
    ∃ call, (calls.filter Call.appends)[place]? = some call ∧
      Shows q (Marked calls (starts groups code.bytecode.length)) call group := by
  obtain ⟨bound, found⟩ := List.getElem?_eq_some_iff.mp here
  obtain ⟨same, each⟩ := List.forall₂_iff_get.mp assembled.shown.shows
  have shows := each place (same ▸ bound) bound
  rw [get_eq_getElem, get_eq_getElem, found] at shows
  exact ⟨_, getElem?_eq_getElem (same ▸ bound), shows⟩

theorem Assembled.tiles_group (here : groups[place]? = some group) :
    ∃ start next, (starts groups code.bytecode.length)[place + 1]? = some next ∧
      Tiles start group next := by
  have filled : ∀ group ∈ groups, group ≠ [] := by
    intro group member
    obtain ⟨place, found⟩ := getElem?_of_mem member
    obtain ⟨call, -, shows⟩ := assembled.exists_call found
    exact shows.ne_nil
  obtain ⟨start, next, -, behind, tiles⟩ := Jvm.tiles_group filled assembled.lists.tiles here
  exact ⟨start, next, behind, tiles⟩

theorem Assembled.frameOffsets_eq (fits : ∀ f, Call.frame f ∈ calls → f.Fits) :
    code.frameOffsets = .ok ((a.framesOf groups code.bytecode.length).map Prod.fst) := by
  have ascending := assembled.recorded.framesAscend
  rw [← assembled.finished.length_laid assembled.recorded] at ascending
  obtain ⟨members, sorted⟩ := assembled.finished.mem_byAddress assembled.apart ascending
  unfold Code.frameOffsets
  rw [assembled.finished.stackMap]
  split
  next none =>
    split at none
    next empty => rw [Assembler.framesOf, isEmpty_iff.mp empty, map_nil]
    next => cases none
  next bytes some =>
    split at some
    next => cases some
    next =>
      cases some
      refine frameOffsets_encodeStackMap ?_ sorted ?_ _
      · rintro ⟨pc, f⟩ member
        obtain ⟨place, -, -, noted⟩ := (members pc f).mp member
        exact fits f (assembled.recorded.asked _ (exists_of_lastAt noted))
      · rintro ⟨pc, f⟩ member
        obtain ⟨place, inside, here, -⟩ := (members pc f).mp member
        exact lt_of_lt_of_le ((assembled.lt_iff here).mpr inside) assembled.finished.low

theorem Assembled.mem_framesOf (address : Nat) :
    address ∈ (a.framesOf groups code.bytecode.length).map Prod.fst ↔
      address < code.bytecode.length ∧ ∃ place, FramedBefore calls place ∧
        (starts groups code.bytecode.length)[place]? = some address := by
  have ascending := assembled.recorded.framesAscend
  rw [← assembled.finished.length_laid assembled.recorded] at ascending
  obtain ⟨members, -⟩ := assembled.finished.mem_byAddress assembled.apart ascending
  rw [mem_map]
  constructor
  · rintro ⟨⟨pc, f⟩, listed, rfl⟩
    obtain ⟨place, before, here, noted⟩ := (members pc f).mp listed
    exact ⟨(assembled.lt_iff here).mpr before, place,
      (assembled.recorded.frames place).mp ⟨f, exists_of_lastAt noted⟩, here⟩
  · rintro ⟨inside, place, framed, here⟩
    obtain ⟨f, recorded⟩ := (assembled.recorded.frames place).mpr framed
    obtain ⟨last, noted⟩ := lastAt_of_mem recorded
    exact ⟨(address, last), (members address last).mpr
      ⟨place, (assembled.lt_iff here).mp inside, here, noted⟩, rfl⟩

theorem Assembled.mem_of_leads (framed : FramesRecorded calls) (member : call ∈ calls)
    (leads : Leads (Marked calls (starts groups code.bytecode.length)) call t)
    (inside : t < code.bytecode.length) :
    t.toNat ∈ (a.framesOf groups code.bytecode.length).map Prod.fst := by
  obtain ⟨l, listed, address, ⟨place, marked, here⟩, rfl⟩ := leads
  have inside : address < code.bytecode.length := Int.ofNat_lt.mp inside
  have bound := (assembled.lt_iff here).mp inside
  rw [assembled.finished.length_laid assembled.recorded] at bound
  exact (assembled.mem_framesOf address).mpr
    ⟨inside, place, framed.labels call member l listed place bound marked, here⟩

end

end Assembled

/-- What the frames of code cover: they are the recorded ones, and with the exception of the
addresses that are skipped to there is one wherever control arrives. -/
structure Covers (calls : List Call) (code : Code) (groups : List (List Instruction))
    (offsets : List Nat) : Prop where
  recorded : ∀ address, address ∈ offsets ↔ address < code.bytecode.length ∧
    ∃ place, FramedBefore calls place ∧
      (starts groups code.bytecode.length)[place]? = some address
  targets : ∀ i ∈ groups.flatten, ∀ t ∈ i.targets, t < code.bytecode.length →
    t.toNat ∈ offsets ∨ Skipped groups t.toNat
  handlers : ∀ e ∈ code.exceptions, e.handler.toNat < code.bytecode.length →
    e.handler.toNat ∈ offsets
  behind : ∀ i ∈ groups.flatten, i.op.transfers = true →
    i.pc + i.length < code.bytecode.length →
    i.pc + i.length ∈ offsets ∨ Skipped groups (i.pc + i.length)

/-- Frames that are recorded where control arrives cover finished code: every address that an
instruction or an exception leads to and every instruction that control does not run on to has a
frame, apart from those behind the long jumps that jumps on a condition were made into. -/
theorem covers_finish {pool : Pool} (sound : pool.Sound) {calls : List Call}
    (proper : ∀ call ∈ calls, call.isProper = true) (framed : FramesRecorded calls) {code : Code}
    {b : Assembler}
    (ran : (do Call.runAll calls; Asm.finish : Asm Code).run.run { pool } = (.ok code, b)) :
    ∃ groups offsets, Lists calls code b.pool groups ∧ code.frameOffsets = .ok offsets ∧
      Covers calls code groups offsets := by
  obtain ⟨a, laid, at_, groups, assembled⟩ := assembled_of_run sound proper ran
  refine ⟨groups, _, assembled.lists, assembled.frameOffsets_eq framed.fits,
    assembled.mem_framesOf, ?_, ?_, ?_⟩
  · intro i member t target inside
    obtain ⟨group, listed, within⟩ := mem_flatten.mp member
    obtain ⟨place, here⟩ := getElem?_of_mem listed
    obtain ⟨call, asked, shows⟩ := assembled.exists_call here
    have known := mem_of_mem_filter (mem_of_getElem? asked)
    rcases shows.leads (proper call known) within target with leads | ⟨first, second, rfl, rfl⟩
    · exact .inl (assembled.mem_of_leads framed known leads inside)
    · exact .inr ⟨first, second, listed, rfl⟩
  · intro e member inside
    obtain ⟨c, listed, isFor⟩ := assembled.lists.exceptions.exists_isFor member
    obtain ⟨call, known, caught⟩ := mem_filterMap.mp listed
    have handled : c.handler ∈ call.destinations := by
      cases call with
      | catch_ => cases caught; exact mem_cons_self
      | _ => cases caught
    exact assembled.mem_of_leads framed known ⟨c.handler, handled, _, isFor.handler, rfl⟩
      (Int.ofNat_lt.mpr inside)
  · intro i member ends inside
    obtain ⟨group, listed, within⟩ := mem_flatten.mp member
    obtain ⟨place, here⟩ := getElem?_of_mem listed
    obtain ⟨call, asked, shows⟩ := assembled.exists_call here
    obtain ⟨start, next, behind, tiles⟩ := assembled.tiles_group here
    have known := mem_of_mem_filter (mem_of_getElem? asked)
    rcases shows.transfers (proper call known) within ends with ⟨rfl, transfers⟩ | ⟨first, rfl, five⟩
    · -- Control does not run on behind the call, so a frame was recorded behind it.
      have reached : i.pc + i.length = next := tiles.eq_of_single
      rw [reached] at inside ⊢
      obtain ⟨k, found, count⟩ := Call.exists_of_filter asked
      have bound := (assembled.lt_iff behind).mp inside
      rw [assembled.finished.length_laid assembled.recorded] at bound
      have recorded := framed.behind k call found transfers (by rwa [count])
      rw [count] at recorded
      exact .inl ((assembled.mem_framesOf next).mpr ⟨inside, place + 1, recorded, behind⟩)
    · exact .inr ⟨first, i, listed, by rw [five]⟩

theorem Call.MarkedBefore.unique {l : CodeLabel} {first second : Nat}
    (left : MarkedBefore calls l first) (right : MarkedBefore calls l second) : first = second := by
  obtain ⟨before, after, rfl, last, rfl⟩ := left
  obtain ⟨before', after', split, last', rfl⟩ := right
  -- A mark further back in one of the two would stand behind the last one of the other.
  rcases append_eq_append_iff.mp split with ⟨between, rfl, rest⟩ | ⟨between, rfl, rest⟩
  · cases between with
    | nil => rw [append_nil]
    | cons call between =>
      obtain ⟨-, rfl⟩ := cons.inj rest
      exact absurd (mem_append_right _ mem_cons_self) last
  · cases between with
    | nil => rw [append_nil]
    | cons call between =>
      obtain ⟨-, rfl⟩ := cons.inj rest
      exact absurd (mem_append_right _ mem_cons_self) last'

/-- A loop while there is nothing on the stack, with frames at its labels. -/
def waiting : List Call :=
  [.newLabel, .newLabel, .mark 0, .frame ⟨[], []⟩, .null, .jump .ifnonnull 1, .jump .goto 0,
    .mark 1, .frame ⟨[], []⟩, .return_ "V"]

theorem framesRecorded_waiting : FramesRecorded waiting := by
  have head : MarkedBefore waiting 0 0 := ⟨[.newLabel, .newLabel], _, rfl, by simp, rfl⟩
  have exit : MarkedBefore waiting 1 3 := ⟨[.newLabel, .newLabel, .mark 0, .frame ⟨[], []⟩, .null,
    .jump .ifnonnull 1, .jump .goto 0], _, rfl, by simp, rfl⟩
  have headFramed : FramedBefore waiting 0 :=
    ⟨[.newLabel, .newLabel, .mark 0], _, _, rfl, rfl⟩
  have exitFramed : FramedBefore waiting 3 := ⟨[.newLabel, .newLabel, .mark 0, .frame ⟨[], []⟩,
    .null, .jump .ifnonnull 1, .jump .goto 0, .mark 1], _, _, rfl, rfl⟩
  refine ⟨?_, ?_, ?_⟩
  · intro f member
    have empty : f = ⟨[], []⟩ := by simpa [waiting] using member
    rw [empty]
    exact ⟨Nat.zero_le _, Nat.zero_le _⟩
  · intro call member l listed place _ marked
    have all : ∀ call ∈ waiting, ∀ l ∈ call.destinations, l = 0 ∨ l = 1 := by decide
    rcases all call member l listed with rfl | rfl
    · rwa [marked.unique head]
    · rwa [marked.unique exit]
  · intro k call found transfers inside
    have all : ∀ k < waiting.length, waiting[k]?.any Call.transfers = true →
        appended (waiting.take (k + 1)) = 3 ∨ appended (waiting.take (k + 1)) = 4 := by decide
    have bound := (List.getElem?_eq_some_iff.mp found).1
    rcases all k bound (by rwa [found]) with three | four
    · rwa [three]
    · rw [four] at inside
      exact absurd inside (by decide)

theorem covers_finish_waiting :
    ∃ code b groups, (do Call.runAll waiting; Asm.finish : Asm Code).run.run { pool := {} } =
      (.ok code, b) ∧ code.bytecode = [1, 199, 0, 6, 167, 255, 252, 177] ∧
      code.frameOffsets = .ok [0, 7] ∧ Lists waiting code b.pool groups ∧
      Covers waiting code groups [0, 7] := by
  obtain ⟨code, b, ran, view⟩ := run_of_finished? (by decide +kernel :
    (finished? waiting).map (fun code => (code.bytecode, code.frameOffsets.toOption)) =
      some ([1, 199, 0, 6, 167, 255, 252, 177], some [0, 7]))
  obtain ⟨bytecode, frames⟩ := Prod.mk.inj view
  obtain ⟨groups, offsets, lists, found, covers⟩ :=
    covers_finish Pool.sound_empty (by decide) framesRecorded_waiting ran
  rw [found] at frames
  cases frames
  exact ⟨code, b, groups, ran, bytecode, found, lists, covers⟩

end DexLift.Jvm
