import DexLift.Proofs.Jvm.Annotations
import DexLift.Proofs.Jvm.ClassReading
import DexLift.Proofs.Jvm.Framing
import DexLift.Proofs.Jvm.StackMaps

/-!
# Numbers that have to fit

Depths, slots and counts are numbers of any size while a class is made, and are written
with 16 bits or with 8. Rows of the line table and frames are bounded by the size of the
code, which is checked, so that they can always be counted. The greatest depth, the
number of locals and the count of an interface call are bounded by nothing; their low
bits are written. Of all other lists the length is read back where it fits.
-/

namespace DexLift.Jvm

open List Call

/-! ## Counts of interface calls -/

variable {call : Call} {a b : Assembler} {calls : List Call}

/-- The bytes of a call on an interface end in the number of slots of its arguments, as far as a
byte holds it, and a zero. -/
def Call.CountedIn (call : Call) (piece : List UInt8) : Prop :=
  ∀ owner name desc ofInterface, call = .invoke .invokeinterface owner name desc ofInterface →
    ∃ args result i, Asm.descSlots desc = .ok (args, result) ∧
      piece = Opcode.invokeinterface.code :: u2 i ++ [UInt8.ofNat (args + 1), 0]

def Call.CountedBy (call : Call) (item : Item) : Prop :=
  ∀ owner name desc ofInterface, call = .invoke .invokeinterface owner name desc ofInterface →
    ∃ piece, item = .bytes piece ∧ call.CountedIn piece

theorem Asm.Appends.mono {step : Asm Unit} {good other : Pool → Item → Prop}
    (appends : Appends step good) (weaker : ∀ p item, good p item → other p item) :
    Appends step other := by
  intro a b ran sound
  obtain ⟨item, grown, fits⟩ := appends a b ran sound
  exact ⟨item, grown, fun p later fine => weaker p item (fits p later fine)⟩

open Asm in
theorem Asm.appends_interface (owner name desc : Text) (ofInterface : Bool) :
    Appends (invoke .invokeinterface owner name desc ofInterface) fun _ item =>
      ∃ args result i, descSlots desc = .ok (args, result) ∧ item =
        .bytes (Opcode.invokeinterface.code :: u2 i ++ [UInt8.ofNat (args + 1), 0]) := by
  refine appends_lift fun (args, result) told => ?_
  refine appends_intern (fun _ _ => True) ?_ (fun _ _ _ => trivial) (fun _ _ => trivial)
    fun index => ?_
  · exact (Pool.adds_interfaceMethodRef owner name desc).ite (Pool.adds_methodRef owner name desc)
  · exact appends_emit (fun p _ => ⟨args, result, index, told, rfl⟩) _

theorem Call.appends_counted (adding : call.appends = true) (proper : call.isProper = true) :
    Asm.Appends call.run fun _ item => call.CountedBy item := by
  by_cases interface : ∃ owner name desc ofInterface,
      call = .invoke .invokeinterface owner name desc ofInterface
  · obtain ⟨owner, name, desc, ofInterface, rfl⟩ := interface
    refine (Asm.appends_interface owner name desc ofInterface).mono ?_
    rintro p item ⟨args, result, i, told, rfl⟩ _ _ _ _ ⟨⟩
    refine ⟨_, rfl, ?_⟩
    rintro _ _ _ _ ⟨⟩
    exact ⟨args, result, i, told, rfl⟩
  · refine (appends_run adding proper).mono fun p item _ => ?_
    intro owner name desc ofInterface same
    exact absurd ⟨owner, name, desc, ofInterface, same⟩ interface

theorem Call.run_of_silent (silent : call.appends = false) (ran : call.run.run.run a = (.ok (), b)) :
    b.items = a.items ∧ b.pool = a.pool := by
  cases call with
  | line =>
    cases ran
    dsimp only
    split <;> exact ⟨rfl, rfl⟩
  | newLabel | mark | setInitialFrame | frame | catch_ =>
    cases ran
    exact ⟨rfl, rfl⟩
  | _ => cases silent

structure Counted (calls : List Call) (a : Assembler) : Prop where
  sound : a.pool.Sound
  items : ∀ p, a.pool.Grows p → p.failure = none →
    Forall₂ Call.CountedBy (calls.filter Call.appends) a.items.toList

theorem Counted.snoc (counted : Counted calls a) (proper : call.isProper = true)
    (ran : call.run.run.run a = (.ok (), b)) : Counted (calls ++ [call]) b := by
  cases adding : call.appends with
  | true =>
    obtain ⟨item, grown, counts⟩ := appends_counted adding proper a b ran counted.sound
    refine ⟨grown.pool.sound counted.sound, fun p later fine => ?_⟩
    rw [filter_append, filter_singleton, adding, grown.items, Array.toList_push]
    exact rel_append (counted.items p (grown.pool.trans later) fine)
      (.cons (counts p later fine) .nil)
  | false =>
    obtain ⟨items, pool⟩ := run_of_silent adding ran
    refine ⟨pool ▸ counted.sound, fun p later fine => ?_⟩
    rw [filter_append, filter_singleton, adding, items, cond_false, append_nil]
    exact counted.items p (pool ▸ later) fine

theorem Counted.runAll {more : List Call} (counted : Counted calls a)
    (proper : ∀ call ∈ more, call.isProper = true)
    (ran : (runAll more).run.run a = (.ok (), b)) : Counted (calls ++ more) b := by
  induction more generalizing calls a with
  | nil =>
    cases ran
    rwa [append_nil]
  | cons call more ih =>
    obtain ⟨here, later⟩ := forall_mem_cons.mp proper
    obtain ⟨⟨⟩, c, ended, ran⟩ := Asm.bind_ok ran
    have all := ih (counted.snoc here ended) later ran
    rwa [append_assoc] at all

theorem countedIn_of_encode {at_ : CodeLabel → Nat} {items laid : List Item}
    (counted : Forall₂ CountedBy calls items)
    (lengthens : Forall₂ Item.Lengthens items laid) {pc : Nat} {pieces : List (List UInt8)}
    (encoded : (laid.zip (addressesFrom pc laid)).mapM
      (fun pair => pair.1.encode pair.2 at_) = .ok pieces) :
    Forall₂ CountedIn calls pieces := by
  induction counted generalizing laid pc pieces with
  | nil =>
    cases lengthens
    cases encoded
    exact .nil
  | @cons call item calls items here _ ih =>
    cases lengthens with
    | @cons _ longer _ others lengthens more =>
      rw [addressesFrom, zip_cons_cons, mapM_cons] at encoded
      obtain ⟨piece, first, encoded⟩ := Outcome.bind_ok.mp encoded
      obtain ⟨behind, second, encoded⟩ := Outcome.bind_ok.mp encoded
      cases encoded
      refine .cons ?_ (ih more second)
      intro owner name desc ofInterface same
      obtain ⟨bytes, rfl, counts⟩ := here owner name desc ofInterface same
      cases lengthens
      cases first
      exact counts owner name desc ofInterface same

/-! ## Numbers in finished code -/

section Assembled

variable {calls : List Call} {code : Code} {q : Pool} {a : Assembler} {laid : List Item}
  {at_ : CodeLabel → Nat} {groups : List (List Instruction)}

section

variable (assembled : Assembled calls code q a laid at_ groups)

include assembled

theorem Assembled.length_byAddress_le {α : Type} {entries : List (Nat × α)}
    (ascending : Ascending entries laid.length) :
    (Assembler.byAddress (starts groups code.bytecode.length).toArray code.bytecode.length
      entries).length ≤ 65535 := by
  obtain ⟨members, sorted⟩ := assembled.finished.mem_byAddress assembled.apart ascending
  refine le_trans (length_le_of_ascending sorted ?_) assembled.finished.low
  rintro ⟨pc, value⟩ member
  obtain ⟨place, inside, here, -⟩ := (members pc value).mp member
  exact (assembled.lt_iff here).mpr inside

theorem Assembled.framesOf_spec (fits : ∀ f, frame f ∈ calls → f.Fits) :
    (a.framesOf groups code.bytecode.length).Pairwise (fun first second => first.1 < second.1) ∧
      ∀ entry ∈ a.framesOf groups code.bytecode.length, entry.2.Fits ∧ entry.1 ≤ 65535 := by
  have ascending := assembled.recorded.framesAscend
  rw [← assembled.finished.length_laid assembled.recorded] at ascending
  obtain ⟨members, sorted⟩ := assembled.finished.mem_byAddress assembled.apart ascending
  refine ⟨sorted, ?_⟩
  rintro ⟨pc, f⟩ member
  obtain ⟨place, inside, here, noted⟩ := (members pc f).mp member
  refine ⟨fits f (assembled.recorded.asked _ (exists_of_lastAt noted)), ?_⟩
  exact assembled.finished.low_addresses pc (mem_of_getElem? here)

theorem Assembled.counted (counted : Counted calls a) :
    ∃ pieces : List (List UInt8), code.bytecode = pieces.flatten ∧
      Forall₂ CountedIn (calls.filter appends) pieces := by
  have finished := assembled.finished
  have grown : a.pool.Grows q := (Assembler.adds_exceptionTable _ _ _).trans finished.exceptionsGrow
  obtain ⟨pieces, encoded, bytecode⟩ := finished.encoded
  rw [finished.addresses_eq] at encoded
  exact ⟨pieces, bytecode,
    countedIn_of_encode (counted.items q grown finished.fine) finished.laidOut.lengthens encoded⟩

theorem Assembled.decodeStackMap_eq (fits : ∀ f, frame f ∈ calls → f.Fits) :
    code.stackMap.elim (some []) (decodeStackMap q a.initial) =
      some (a.framesOf groups code.bytecode.length) := by
  have finished := assembled.finished
  obtain ⟨sorted, each⟩ := assembled.framesOf_spec fits
  have few : (a.framesOf groups code.bytecode.length).length ≤ 65535 := by
    have ascending := assembled.recorded.framesAscend
    rw [← finished.length_laid assembled.recorded] at ascending
    exact assembled.length_byAddress_le ascending
  rw [finished.stackMap]
  split
  next empty => rw [Assembler.framesOf, isEmpty_iff.mp empty, Option.elim_none]
  next framed =>
    have later := finished.stackMapGrows framed
    have sound := (Assembler.adds_exceptionTable at_ a.catchers.toList a.pool).sound
      assembled.recorded.sound
    exact decodeStackMap_written sound (later.fine finished.fine) later few
      (fun entry member => (each entry member).1) sorted fun entry member => (each entry member).2

end

end Assembled

/-- The numbers in assembled code. The greatest depth, the number of locals and the counts of
interface calls are written as far as they fit. Nothing else is cut off, unless a frame itself
has more types than can be counted. -/
structure Measured (calls : List Call) (code : Code) (q : Pool) (a : Assembler)
    (groups : List (List Instruction)) : Prop where
  maxStack : code.maxStack.toNat = a.maxStack.toNat % 65536
  maxLocals : code.maxLocals.toNat = a.maxLocals % 65536
  lists : Lists calls code q groups
  counted : ∃ pieces : List (List UInt8), code.bytecode = pieces.flatten ∧
    Forall₂ Call.CountedIn (calls.filter Call.appends) pieces
  lines : code.lines.length ≤ 65535
  stackMap : (∀ f, Call.frame f ∈ calls → f.Fits) →
    code.stackMap.elim (some []) (decodeStackMap q a.initial) =
      some (a.framesOf groups code.bytecode.length)

theorem measured_finish {pool : Pool} (sound : pool.Sound)
    (proper : ∀ call ∈ calls, call.isProper = true) {code : Code}
    (ran : (do runAll calls; Asm.finish : Asm Code).run.run { pool } = (.ok code, b)) :
    ∃ a groups, (runAll calls).run.run { pool } = (.ok (), a) ∧
      Measured calls code b.pool a groups := by
  obtain ⟨⟨⟩, a, called, ended⟩ := Asm.bind_ok ran
  have start : Counted [] { pool } := ⟨sound, fun _ _ _ => .nil⟩
  have counted : Counted calls a := start.runAll proper called
  obtain ⟨laid, at_, groups, assembled⟩ :=
    assembled_of_finish ((recorded_nil sound).runAll proper called) ended
  have lines : code.lines.length ≤ 65535 := by
    have ascending := assembled.recorded.linesAscend
    rw [← assembled.finished.length_laid assembled.recorded] at ascending
    rw [assembled.finished.lines, length_map]
    exact assembled.length_byAddress_le ascending
  refine ⟨a, groups, called, ?_, ?_, assembled.lists, assembled.counted counted, lines,
    assembled.decodeStackMap_eq⟩
  · rw [assembled.finished.maxStack]
    exact UInt16.toNat_ofNat
  · rw [assembled.finished.maxLocals]
    exact UInt16.toNat_ofNat

/-! ## Numbers in class files -/

/-- The lengths of the lists of a method: the declared exceptions and, when there is code, the rows
of its exception table and its lines. -/
def Method.lengths (m : Method) : Nat × Option (Nat × Nat) :=
  (m.throws.length, m.code.map fun c => (c.exceptions.length, c.lines.length))

def ClassFile.lengths (c : ClassFile) : Nat × Nat × List (Nat × Option (Nat × Nat)) :=
  (c.interfaces.length, c.fields.length, c.methods.map Method.lengths)

theorem ClassFile.lengths_reread (c : ClassFile) : c.reread.lengths = c.lengths := by
  have method : ∀ major, Method.lengths ∘ (fun m => m.reread major) = Method.lengths := by
    intro major
    funext m
    cases body : m.code <;> simp [Method.lengths, Method.reread, Code.reread, body]
  simp only [lengths, reread, length_map, map_map, method]

theorem ClassFile.lengths_of_decode {c : ClassFile} (utf8 : c.IsUtf8) (fits : c.Fits)
    (grown : Pool.Grows {} c.pool) {bytes : List UInt8} {p : Pool}
    (written : c.encode = .ok (bytes, p)) (small : p.count ≤ 65535) :
    ∃ d, decode ⟨bytes.toArray⟩ = .ok d ∧ d.lengths = c.lengths := by
  obtain ⟨q, -, reads⟩ := reads_encode utf8 fits grown written small
  have run := Scan.Reads.run_append reads []
  rw [append_nil] at run
  exact ⟨_, congrArg Prod.fst run, c.lengths_reread⟩

/-- The numbers that are written. In assembled code the greatest depth, the number of locals and the
counts of interface calls are those that were followed as far as they fit, slots and dimensions
are the ones asked for, and all frames and lines are counted. The lists of a class and of its
annotations that are no longer than a count can say are counted, too. -/
theorem counts_written (pool : Pool) (calls : List Call) (c : ClassFile) (depth : Nat)
    (annotations : List Annotation) (p : Pool) :
    (∀ code b, pool.Sound → (∀ call ∈ calls, call.isProper = true) →
      (do Call.runAll calls; Asm.finish : Asm Code).run.run { pool } = (.ok code, b) →
      ∃ a groups, (Call.runAll calls).run.run { pool } = (.ok (), a) ∧
        Measured calls code b.pool a groups) ∧
    (∀ bytes q, c.IsUtf8 → c.Fits → Pool.Grows {} c.pool → c.encode = .ok (bytes, q) →
      q.count ≤ 65535 → ∃ d, ClassFile.decode ⟨bytes.toArray⟩ = .ok d ∧ d.lengths = c.lengths) ∧
    (annotations.length ≤ 65535 → (∀ a ∈ annotations, a.FitsIn depth) →
      Forall₂ (HoldsAnnotations depth annotations)
        ([true, false].filter fun isVisible => !(annotationsOf annotations isVisible).isEmpty)
        ((annotationAttributes annotations).run p).1) :=
  ⟨fun _ _ sound proper ran => measured_finish sound proper ran,
    fun _ _ utf8 fits grown written small =>
      ClassFile.lengths_of_decode utf8 fits grown written small,
    fun few fits => holds_annotationAttributes few fits p⟩

/-- A number of two places is moved to a local. -/
def moving : List Call := [.long 0, .store "J" 300, .return_ "V"]

def marked : List Annotation :=
  [⟨"La;", true, [("n", .number 73 42), ("t", .array [.string "b", .string "c"])]⟩]

/-- The number takes two places on the stack and as a local, the class has the lists it had, and
the annotation its two values. -/
theorem counts_written_moving :
    (∃ code b a groups, (do Call.runAll moving; Asm.finish : Asm Code).run.run { pool := {} } =
      (.ok code, b) ∧ (code.maxStack, code.maxLocals) = (2, 302) ∧
        Measured moving code b.pool a groups) ∧
    (∃ bytes d, (ClassFile.answering.encode).map Prod.fst = .ok bytes ∧
      ClassFile.decode ⟨bytes.toArray⟩ = .ok d ∧
      d.lengths = (0, 1, [(0, some (0, 0))])) ∧
    Forall₂ (HoldsAnnotations 2 marked) [true] ((annotationAttributes marked).run {}).1 := by
  obtain ⟨measured, lengths, held⟩ :=
    counts_written {} moving ClassFile.answering 2 marked {}
  refine ⟨?_, ?_, held (by decide) ?_⟩
  · obtain ⟨code, b, ran, view⟩ := run_of_finished? (by decide +kernel :
      (finished? moving).map (fun code => (code.maxStack, code.maxLocals)) = some (2, 302))
    obtain ⟨a, groups, -, all⟩ := measured code b Pool.sound_empty (by decide) ran
    exact ⟨code, b, a, groups, ran, view, all⟩
  · obtain ⟨utf8, fits⟩ := ClassFile.answering_plain
    obtain ⟨bytes, q, written, size⟩ :=
      ClassFile.encode_of_takes ClassFile.takes_answering rfl (by decide)
    obtain ⟨d, read, same⟩ :=
      lengths bytes q utf8 fits (.refl _) written (le_trans size (by decide))
    exact ⟨bytes, d, by rw [written]; rfl, read, same⟩
  · refine forall_mem_singleton.mpr ⟨by decide, ?_⟩
    refine forall_mem_cons.mpr ⟨.number (by decide) 42, forall_mem_singleton.mpr ?_⟩
    exact .array (by decide) (forall_mem_cons.mpr
      ⟨.string "b", forall_mem_singleton.mpr (.string "c")⟩)

end DexLift.Jvm
