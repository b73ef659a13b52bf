import DexLift.Convert.Run
import DexLift.Proofs.Convert.Stubs
import DexLift.Proofs.Dex.Collecting
import Mathlib

/-!
# A conversion goes to the end

A method that cannot be converted does not end a conversion: it gets a body that
throws, and the classes after it are converted all the same. The body is built
with the pool of the class, and there is one way in which that fails: the pool is
spoiled by a constant that did not fit. Then the conversion ends at that method.
-/

namespace DexLift.Convert

open List
open Jvm (Pool Code)

/-! ## Running recorded steps -/

variable {n : Nat} {written pool : Pool} {s : Settings} {data : ByteArray} {file : Dex.File}
  {collected : Dex.Collected}

namespace Recorded

variable {α β : Type} {step : Recorded α} {next : α → Recorded β} {r after : Record}

theorem run_bind_of_ok {value : α} (ended : step.run.run r = (.ok value, after)) :
    (step >>= next).run.run r = (next value).run.run after := by
  rw [ExceptT.run_bind, StateT.run_bind, ended]
  rfl

theorem run_bind_of_error {stop : Stop} (ended : step.run.run r = (.error stop, after)) :
    (step >>= next).run.run r = (.error stop, after) := by
  rw [ExceptT.run_bind, StateT.run_bind, ended]
  rfl

theorem run_report (change : Report → Report) (r : Record) :
    (report change).run.run r = (.ok (), { r with report := change r.report }) := rfl

theorem run_incident (i : Incident) (r : Record) : (incident i).run.run r =
    (.ok (), { r with report := { r.report with incidents := r.report.incidents ++ [i] } }) := rfl

theorem run_consult_logging (question : Question) (r : Record) :
    (Handler.logging.consult question).run.run r =
      (.ok (), { r with
        asked := question :: r.asked, log := r.log ++ (Handler.logging r.asked question).lines }) := by
  cases question <;> rfl

/-- A step that leaves the report as it is, and whose result does not depend on the record. -/
def Silent (step : Recorded α) : Prop :=
  ∀ r, ∃ after, step.run.run r = ((step.run.run {}).1, after) ∧ after.report = r.report

theorem Silent.pure (value : α) : Silent (Pure.pure value) := fun r => ⟨r, rfl, rfl⟩

theorem silent_throw (stop : Stop) : Silent (throw stop : Recorded α) := fun r => ⟨r, rfl, rfl⟩

theorem silent_log (level : Level) (message : String) (fields : List (String × Text)) :
    Silent (log level message fields) := fun _ => ⟨_, rfl, rfl⟩

theorem Silent.bind (first : Silent step) (second : ∀ value, Silent (next value)) :
    Silent (step >>= next) := by
  intro r
  obtain ⟨middle, ended, same⟩ := first r
  rcases start : step.run.run {} with ⟨stop | value, fresh⟩
  · rw [start] at ended
    rw [run_bind_of_error ended, run_bind_of_error start]
    exact ⟨middle, rfl, same⟩
  · rw [start] at ended
    obtain ⟨after, endedNext, sameNext⟩ := second value middle
    obtain ⟨_, endedFresh, _⟩ := second value fresh
    rw [run_bind_of_ok ended, run_bind_of_ok start, endedNext, endedFresh]
    exact ⟨after, rfl, sameNext.trans same⟩

end Recorded

open Recorded (run_bind_of_ok run_bind_of_error run_report run_incident run_consult_logging)

/-! ## The code of a method -/

/-- Whether a conversion cannot go on in any way. -/
def Breaks (stop : Stop) : Prop := stop = .crashed ∨ stop = .endless

def codeOf (s : Settings) (input : Input) (owner : Text) (m : Dex.Method) (pool : Pool) :
    Outcome (Except Failure Code × Pool) :=
  ((convertCode s input owner m pool).run.run {}).1

/-- How converting the code of a method ends: the pool has grown, or nothing goes on. -/
inductive CodeEnds (pool : Pool) : Outcome (Except Failure Code × Pool) → Prop
  | arrived {outcome : Except Failure Code} {after : Pool} (grows : pool.Grows after) :
    CodeEnds pool (.ok (outcome, after))
  | broken {stop : Stop} (breaks : Breaks stop) : CodeEnds pool (.error stop)

section

variable (s : Settings) (input : Input) (owner : Text)

theorem convertCode_eq (m : Dex.Method) (pool : Pool) : ∃ print : Recorded Unit, print.Silent ∧
    (∀ r, (print.run.run r).1 = .ok ()) ∧
    convertCode s input owner m pool =
      print >>= fun _ => emitCode s input owner pool (lowered input s.options m) := by
  unfold convertCode lowered
  cases simplified input m with
  | error stop => exact ⟨pure (), Recorded.Silent.pure (), fun _ => rfl, rfl⟩
  | ok ir =>
    dsimp only
    by_cases printed : s.options.printIr = true
    · rw [if_pos printed]
      refine ⟨_, ?_, ?_, rfl⟩
      · exact fun _ => ⟨_, rfl, rfl⟩
      · exact fun _ => rfl
    · rw [if_neg printed]
      exact ⟨pure (), Recorded.Silent.pure (), fun _ => rfl, rfl⟩

theorem emitCode_ends (pool : Pool) (body : Outcome Ir.Method) :
    (emitCode s input owner pool body).Silent ∧
      ∀ r, CodeEnds pool ((emitCode s input owner pool body).run.run r).1 := by
  rcases body with (failure | - | -) | ir
  · exact ⟨Recorded.Silent.pure _, fun _ => .arrived (.refl pool)⟩
  · exact ⟨Recorded.silent_throw _, fun _ => .broken (.inl rfl)⟩
  · exact ⟨Recorded.silent_throw _, fun _ => .broken (.inr rfl)⟩
  · have grows : pool.Grows ((ir.emit (emitOptions s input)).assemble pool).2 :=
      ir.adds_emit (emitOptions s input) { pool }
    unfold emitCode
    dsimp only
    rcases ((ir.emit (emitOptions s input)).assemble pool).1.under (.emitting owner ir.title) with
      (failure | - | -) | code
    · exact ⟨Recorded.Silent.pure _, fun _ => .arrived grows⟩
    · exact ⟨Recorded.silent_throw _, fun _ => .broken (.inl rfl)⟩
    · exact ⟨Recorded.silent_throw _, fun _ => .broken (.inr rfl)⟩
    · exact ⟨(Recorded.silent_log _ _ _).bind fun _ => Recorded.Silent.pure _,
        fun _ => .arrived grows⟩

theorem convertCode_run (m : Dex.Method) (pool : Pool) (r : Record) :
    ∃ after, (convertCode s input owner m pool).run.run r = (codeOf s input owner m pool, after) ∧
      after.report = r.report := by
  obtain ⟨print, quiet, -, unfolded⟩ := convertCode_eq s input owner m pool
  have silent : (convertCode s input owner m pool).Silent := by
    rw [unfolded]
    exact quiet.bind fun _ => (emitCode_ends s input owner pool _).1
  exact silent r

theorem codeOf_ends (m : Dex.Method) (pool : Pool) : CodeEnds pool (codeOf s input owner m pool) := by
  obtain ⟨print, -, always, unfolded⟩ := convertCode_eq s input owner m pool
  rcases ended : print.run.run {} with ⟨outcome, after⟩
  have fine : outcome = .ok () := by
    rw [← always {}, ended]
  subst fine
  rw [codeOf, unfolded, run_bind_of_ok ended]
  exact (emitCode_ends s input owner pool _).2 after

end

/-! ## The methods of a class -/

def titleOf (m : Dex.Method) : Text := m.ref.name ++ m.ref.desc

def withCode (m : Dex.Method) (code : Code) : Jvm.Method := { m.declaration with code := some code }

/-- The stubs that were counted between two records, in which the skipped classes are the same. -/
structure Stubbed (before after : Record) (count : Nat) : Prop where
  stubs : after.report.stubs = before.report.stubs + count
  skipped : after.report.skipped = before.report.skipped

theorem Stubbed.trans {r middle after : Record} {k : Nat} (first : Stubbed r middle n)
    (second : Stubbed middle after k) : Stubbed r after (n + k) := by
  refine ⟨?_, second.skipped.trans first.skipped⟩
  rw [second.stubs, first.stubs, Nat.add_assoc]

section

variable (s : Settings) (input : Input) (owner : Text)

/-- What has become of a method: the method of the class file, the pool, and the number of stubs.
The code of a stub is read with the pool that is written. -/
inductive MethodDone (written : Pool) (m : Dex.Method) (pool : Pool) :
    Jvm.Method → Pool → Nat → Prop
  | declared (bare : m.code = none) : MethodDone written m pool m.declaration pool 0
  | converted {code : Code} {after : Pool} (present : m.code.isSome = true)
    (coded : codeOf s input owner m pool = .ok (.ok code, after)) :
    MethodDone written m pool (withCode m code) after 0
  | stubbed {failure : Failure} {used : Pool} {code : Code} (present : m.code.isSome = true)
    (failed : codeOf s input owner m pool = .ok (.error failure, used))
    (throws : ThrowsUnsupported written code (stubMessage failure)) :
    MethodDone written m pool (withCode m code) ((stub owner m failure).assemble used).2 1

/-- What has become of the methods of a class, one after the other. -/
inductive MethodsDone (written : Pool) :
    List Dex.Method → Pool → List Jvm.Method → Pool → Nat → Prop
  | nil (pool : Pool) : MethodsDone written [] pool [] pool 0
  | cons {m : Dex.Method} {ms : List Dex.Method} {method : Jvm.Method} {out : List Jvm.Method}
    {pool middle after : Pool} {n k : Nat} (first : MethodDone s input owner written m pool method middle n)
    (rest : MethodsDone written ms middle out after k) :
    MethodsDone written (m :: ms) pool (method :: out) after (n + k)

/-- Why a conversion ends at a method: the method failed, and a constant had not fitted the pool
or did not fit it in the stub; or converting it or building the stub cannot go on. -/
inductive Halts (m : Dex.Method) (pool : Pool) : Stop → Prop
  | spoiled {failure spoil : Failure} {used : Pool} (present : m.code.isSome = true)
    (failed : codeOf s input owner m pool = .ok (.error failure, used))
    (told : ((stub owner m failure).assemble used).2.failure = some spoil)
    (cause : spoil.cause = .poolOverflow ∨ spoil.cause = .stringTooLong) :
    Halts m pool (.failed (spoil.under (.emitting owner (titleOf m))))
  | broken {stop : Stop} (present : m.code.isSome = true)
    (broken : codeOf s input owner m pool = .error stop) (breaks : Breaks stop) : Halts m pool stop
  | brokenStub {failure : Failure} {used : Pool} (present : m.code.isSome = true)
    (failed : codeOf s input owner m pool = .ok (.error failure, used))
    (broken : ((stub owner m failure).assemble used).1 = .error .crashed) : Halts m pool .crashed

variable {s input owner}

theorem MethodDone.grows {m : Dex.Method} {after : Pool} {method : Jvm.Method}
    (done : MethodDone s input owner written m pool method after n) : pool.Grows after := by
  have ends := codeOf_ends s input owner m pool
  cases done with
  | declared => exact .refl pool
  | converted present coded =>
    rw [coded] at ends
    cases ends with
    | arrived grows => exact grows
  | stubbed present failed throws =>
    rw [failed] at ends
    cases ends with
    | arrived grows => exact grows.trans (adds_stub owner m _ { pool := _ })

theorem MethodsDone.grows {ms : List Dex.Method} {after : Pool} {out : List Jvm.Method}
    (done : MethodsDone s input owner written ms pool out after n) : pool.Grows after := by
  induction done with
  | nil pool => exact .refl pool
  | cons first _ ih => exact first.grows.trans ih

variable (input owner)

theorem convertMethod_ends (m : Dex.Method) (sound : pool.Sound) (r : Record) :
    (∃ method after n r', (convertMethod .logging s input owner m pool).run.run r =
        (.ok (method, after), r') ∧ Stubbed r r' n ∧
        ∀ written, after.Grows written → MethodDone s input owner written m pool method after n) ∨
      ∃ why r', (convertMethod .logging s input owner m pool).run.run r = (.error why, r') ∧
        Halts s input owner m pool why := by
  unfold convertMethod
  cases bare : m.code with
  | none => exact .inl ⟨_, _, 0, r, rfl, ⟨rfl, rfl⟩, fun _ _ => .declared bare⟩
  | some code =>
    have present : m.code.isSome = true := by rw [bare]; rfl
    obtain ⟨middle, ended, same⟩ := convertCode_run s input owner m pool
      { r with report := { r.report with methods := r.report.methods + 1 } }
    have stubs : middle.report.stubs = r.report.stubs := by rw [same]
    have skipped : middle.report.skipped = r.report.skipped := by rw [same]
    rw [if_neg (by simp), run_bind_of_ok (run_report _ r)]
    have ends := codeOf_ends s input owner m pool
    cases outcome : codeOf s input owner m pool with
    | error why =>
      rw [outcome] at ended ends
      rw [run_bind_of_error ended]
      cases ends with
      | broken breaks => exact .inr ⟨why, middle, rfl, .broken present outcome breaks⟩
    | ok result =>
      obtain ⟨failure | code, used⟩ := result
      · rw [outcome] at ended ends
        rw [run_bind_of_ok ended]
        dsimp only
        rw [run_bind_of_ok (run_incident _ middle), run_bind_of_ok (run_consult_logging _ _)]
        cases ends with
        | arrived grows =>
          have growsStub := adds_stub owner m failure { pool := used }
          have stubEnds := stub_ends (grows.sound sound) owner m failure
          rcases assembled : (stub owner m failure).assemble used with ⟨result, final⟩
          have poolEq : ((stub owner m failure).assemble used).2 = final := by rw [assembled]
          replace growsStub : used.Grows final := poolEq ▸ growsStub
          rw [assembled] at stubEnds
          cases stubEnds with
          | throws fine code_throws =>
            refine .inl ⟨_, final, 1, _, rfl, ⟨?_, skipped⟩, ?_⟩
            · exact congrArg (· + 1) stubs
            · intro written growsWritten
              rw [← poolEq]
              exact .stubbed present outcome (code_throws.grow growsWritten)
          | spoiled failed =>
            refine .inr ⟨_, _, rfl, .spoiled present outcome (poolEq ▸ failed) ?_⟩
            exact (growsStub.sound (grows.sound sound)).told _ failed
          | crashed =>
            exact .inr ⟨_, _, rfl, .brokenStub present outcome (congrArg Prod.fst assembled)⟩
      · rw [outcome] at ended ends
        rw [run_bind_of_ok ended]
        cases ends with
        | arrived grows =>
          exact .inl ⟨_, used, 0, middle, rfl, ⟨stubs, skipped⟩,
            fun _ _ => .converted present outcome⟩

variable (s) in
/-- Why a conversion ends at one of the methods: those before it are done, and it is not. -/
def HaltsAmong (ms : List Dex.Method) (pool : Pool) (why : Stop) : Prop :=
  ∃ before m rest out middle n, ms = before ++ m :: rest ∧
    MethodsDone s input owner middle before pool out middle n ∧ Halts s input owner m middle why

theorem convertMethods_ends (ms : List Dex.Method) (sound : pool.Sound) (r : Record) :
    (∃ out after n r',
        (convertMethods .logging s input owner ms pool).run.run r = (.ok (out, after), r') ∧
        Stubbed r r' n ∧
        ∀ written, after.Grows written → MethodsDone s input owner written ms pool out after n) ∨
      ∃ why r', (convertMethods .logging s input owner ms pool).run.run r = (.error why, r') ∧
        HaltsAmong s input owner ms pool why := by
  induction ms generalizing pool r with
  | nil => exact .inl ⟨[], pool, 0, r, rfl, ⟨rfl, rfl⟩, fun _ _ => .nil pool⟩
  | cons m ms ih =>
    unfold convertMethods
    rcases convertMethod_ends input owner m sound r with
      ⟨method, middle, n, r', ended, counted, done⟩ | ⟨why, r', ended, halts⟩
    · rw [run_bind_of_ok ended]
      dsimp only
      have grows := (done middle (.refl middle)).grows
      rcases ih (grows.sound sound) r' with
        ⟨out, after, k, r'', endedRest, countedRest, doneRest⟩ | ⟨why, r'', endedRest, halts⟩
      · rw [run_bind_of_ok endedRest]
        refine .inl ⟨_, _, _, _, rfl, counted.trans countedRest, ?_⟩
        intro written growsWritten
        have growsRest := (doneRest written growsWritten).grows
        exact .cons (done written (growsRest.trans growsWritten)) (doneRest written growsWritten)
      · rw [run_bind_of_error endedRest]
        obtain ⟨before, at_, rest, out, last, k, rfl, doneBefore, halts⟩ := halts
        exact .inr ⟨why, r'', rfl, m :: before, at_, rest, method :: out, last, n + k, rfl,
          .cons (done last doneBefore.grows) doneBefore, halts⟩
    · rw [run_bind_of_error ended]
      exact .inr ⟨why, r', rfl, [], m, ms, [], pool, 0, rfl, .nil pool, halts⟩

end

/-! ## The classes of a file -/

section

variable (s : Settings) (input : Input)

/-- What has become of a class: the number of stubs in it, and its bytes when it is written. -/
inductive ClassDone (c : Dex.ClassNode) : Nat → Option (List UInt8) → Prop
  | leftOut (chosen : s.options.isSkipped (Descriptor.className c.name) = true) : ClassDone c 0 none
  | written {methods : List Jvm.Method} {pool final : Pool} {n : Nat} {bytes : List UInt8}
    (done : MethodsDone s input (declared s c).name final c.methods {} methods pool n)
    (encoded : (classFile s c methods pool).encode = .ok (bytes, final)) :
    ClassDone c n (some bytes)
  | unwritable {methods : List Jvm.Method} {pool : Pool} {n : Nat} {failure : Failure}
    (done : MethodsDone s input (declared s c).name pool c.methods {} methods pool n)
    (failed : (classFile s c methods pool).encode = .error (.failed failure)) :
    ClassDone c n none

/-- Why a conversion ends at a class: at one of its methods, or where writing it cannot go on. -/
inductive HaltsAt (c : Dex.ClassNode) : Stop → Prop
  | method {why : Stop} (among : HaltsAmong s input (declared s c).name c.methods {} why) :
    HaltsAt c why
  | broken {methods : List Jvm.Method} {pool : Pool} {n : Nat} {why : Stop}
    (done : MethodsDone s input (declared s c).name pool c.methods {} methods pool n)
    (broken : (classFile s c methods pool).encode = .error why) (breaks : Breaks why) :
    HaltsAt c why

variable {s}

variable {input} in
theorem HaltsAt.among {c : Dex.ClassNode} {why : Stop} (halts : HaltsAt s input c why)
    (bare : c.fields = []) : HaltsAmong s input (declared s c).name c.methods {} why := by
  cases halts with
  | method among => exact among
  | @broken methods pool _ _ _ broken breaks =>
    rcases Jvm.ClassFile.encode_of_fieldless (c := classFile s c methods pool)
      (by simp [classFile, bare]) with ⟨result, encoded⟩ | ⟨failure, failed⟩
    · cases encoded.symm.trans broken
    · cases failed.symm.trans broken
      rcases breaks with same | same <;> cases same

theorem convertClass_ends (c : Dex.ClassNode) (r : Record) :
    (∃ data n r', (convertClass .logging s input c).run.run r = (.ok data, r') ∧ Stubbed r r' n ∧
        ClassDone s input c n data) ∨
      ∃ why r', (convertClass .logging s input c).run.run r = (.error why, r') ∧
        HaltsAt s input c why := by
  rw [convertClass]
  rcases convertMethods_ends input (declared s c).name c.methods Pool.sound_empty r with
    ⟨methods, pool, n, r', ended, counted, done⟩ | ⟨why, r', ended, halts⟩
  · rw [run_bind_of_ok ended]
    dsimp only
    rcases encoded : (classFile s c methods pool).encode with (failure | - | -) | ⟨bytes, final⟩
    · have unwritable := ClassDone.unwritable (done pool (.refl pool)) encoded
      unfold writeClass
      rw [run_bind_of_ok (run_incident _ r'), run_bind_of_ok (run_consult_logging _ _)]
      exact .inl ⟨none, n, _, rfl, ⟨counted.stubs, counted.skipped⟩, unwritable⟩
    · exact .inr ⟨.crashed, r', rfl, .broken (done pool (.refl pool)) encoded (.inl rfl)⟩
    · exact .inr ⟨.endless, r', rfl, .broken (done pool (.refl pool)) encoded (.inr rfl)⟩
    · have grows : pool.Grows final := (Jvm.ClassFile.grows_encode encoded).1
      exact .inl ⟨some bytes, n, r', rfl, counted, .written (done final grows) encoded⟩
  · rw [run_bind_of_error ended]
    exact .inr ⟨why, r', rfl, .method halts⟩

/-- The entries of the classes that are written, with their bytes. -/
def delivered (classes : List Dex.ClassNode) (outcomes : List (Nat × Option (List UInt8))) :
    List (Text × List UInt8) :=
  (classes.zip outcomes).filterMap fun (c, _, data) =>
    data.map fun bytes => (Descriptor.className c.name ++ ".class", bytes)

def passedOver (classes : List Dex.ClassNode) (outcomes : List (Nat × Option (List UInt8))) :
    List Text :=
  (classes.zip outcomes).filterMap fun (c, _, data) =>
    if data.isNone then some (Descriptor.className c.name) else none

variable {σ : Type}

def Sink.putAll (sink : Sink σ) (state : σ) (entries : List (Text × List UInt8)) : σ :=
  entries.foldl (fun state entry => (sink.put state entry.1 entry.2).1) state

/-- A sink that takes every entry and can be closed. -/
structure Sink.Willing (sink : Sink σ) : Prop where
  puts : ∀ state name bytes, (sink.put state name bytes).2 = none
  closes : ∀ state, (sink.close state).2 = none

variable (s) in
structure Completed (sink : Sink σ) (classes : List Dex.ClassNode) (before after : Session σ)
    (outcomes : List (Nat × Option (List UInt8))) : Prop where
  done : Forall₂ (fun c outcome => ClassDone s input c outcome.1 outcome.2) classes outcomes
  stubs : after.record.report.stubs = before.record.report.stubs + (outcomes.map Prod.fst).sum
  skipped : after.record.report.skipped =
    before.record.report.skipped ++ passedOver classes outcomes
  sink : after.sink = sink.putAll before.sink (delivered classes outcomes)

variable {sink : Sink σ}

theorem deliver_ends (willing : sink.Willing) (c : Dex.ClassNode) (n : Nat)
    (data : Option (List UInt8)) (session : Session σ) :
    ∃ after, deliver sink (Descriptor.className c.name) data session = (none, after) ∧
      after.record.report.stubs = session.record.report.stubs ∧
      after.record.report.skipped =
        session.record.report.skipped ++ passedOver [c] [(n, data)] ∧
      after.sink = sink.putAll session.sink (delivered [c] [(n, data)]) := by
  cases data with
  | none => exact ⟨_, rfl, rfl, rfl, rfl⟩
  | some bytes =>
    have taken := willing.puts session.sink (Descriptor.className c.name ++ ".class") bytes
    unfold deliver
    dsimp only
    rw [taken]
    exact ⟨_, rfl, rfl, (append_nil _).symm, rfl⟩

theorem Completed.cons {sink : Sink σ} {c : Dex.ClassNode} {n : Nat} {data : Option (List UInt8)}
    {rest : List Dex.ClassNode} {outcomes : List (Nat × Option (List UInt8))}
    {before middle after : Session σ} (first : Completed s input sink [c] before middle [(n, data)])
    (others : Completed s input sink rest middle after outcomes) :
    Completed s input sink (c :: rest) before after ((n, data) :: outcomes) := by
  refine ⟨.cons (List.forall₂_cons.mp first.done).1 others.done, ?_, ?_, ?_⟩
  · rw [others.stubs, first.stubs, map_cons, sum_cons, Nat.add_assoc]
    rfl
  · rw [others.skipped, first.skipped, append_assoc]
    exact congrArg _ (filterMap_append (l := [(c, n, data)])).symm
  · rw [others.sink, first.sink, Sink.putAll, Sink.putAll, ← foldl_append]
    exact congrArg _ (filterMap_append (l := [(c, n, data)])).symm

theorem attempt_ends (session : Session σ) (c : Dex.ClassNode) :
    (∃ data n after, attempt s input .logging session c = (.ok data, after) ∧
        ClassDone s input c n data ∧ Stubbed session.record after.record n ∧
        after.sink = session.sink) ∨
      ∃ why after, attempt s input .logging session c = (.error why, after) ∧
        HaltsAt s input c why := by
  unfold attempt
  by_cases chosen : s.options.isSkipped (Descriptor.className c.name) = true
  · rw [if_pos chosen]
    exact .inl ⟨none, 0, _, rfl, .leftOut chosen, ⟨rfl, rfl⟩, rfl⟩
  · rw [if_neg chosen]
    rcases convertClass_ends input c
        (session.note (report fun r => { r with classes := r.classes + 1 })).record with
      ⟨data, n, r, ended, counted, done⟩ | ⟨why, r, ended, halts⟩
    · rw [Session.step, ended]
      exact .inl ⟨data, n, _, rfl, done, ⟨counted.stubs, counted.skipped⟩, rfl⟩
    · rw [Session.step, ended]
      exact .inr ⟨why, _, rfl, halts⟩

section Step

variable {input} {handler : Handler} {cancelAfter : Option Nat} {sink : Sink σ} {total index : Nat}
  {c : Dex.ClassNode} {rest : List Dex.ClassNode} {session middle next : Session σ}

theorem convertClasses_of_error {why : Stop} (goes : cancelAfter.any (· ≤ index) = false)
    (ended : attempt s input handler session c = (.error why, middle)) :
    convertClasses handler s cancelAfter sink input total index (c :: rest) session =
      (some why, middle) := by
  rw [convertClasses, if_neg (by simp [goes]), ended]

theorem convertClasses_of_ok {data : Option (List UInt8)}
    (goes : cancelAfter.any (· ≤ index) = false)
    (ended : attempt s input handler session c = (.ok data, middle))
    (handed : deliver sink (Descriptor.className c.name) data middle = (none, next)) :
    convertClasses handler s cancelAfter sink input total index (c :: rest) session =
      convertClasses handler s cancelAfter sink input total (index + 1) rest
        { next with progress := next.progress.push (index + 1, total) } := by
  rw [convertClasses, if_neg (by simp [goes]), ended]
  dsimp only
  rw [handed]

end Step

theorem convertClasses_ends (willing : sink.Willing) (total index : Nat)
    (classes : List Dex.ClassNode) (session : Session σ) :
    (∃ after outcomes, convertClasses .logging s none sink input total index classes session =
        (none, after) ∧ Completed s input sink classes session after outcomes) ∨
      ∃ c ∈ classes, ∃ why after,
        convertClasses .logging s none sink input total index classes session =
          (some why, after) ∧ HaltsAt s input c why := by
  induction classes generalizing index session with
  | nil => exact .inl ⟨session, [], rfl, .nil, rfl, (append_nil _).symm, rfl⟩
  | cons c rest ih =>
    rcases attempt_ends input session c with
      ⟨data, n, middle, ended, done, counted, sinkSame⟩ | ⟨why, after, ended, halts⟩
    · obtain ⟨next, handed, stubs, skipped, sinkNext⟩ := deliver_ends willing c n data middle
      have first : Completed s input sink [c] session
          { next with progress := next.progress.push (index + 1, total) } [(n, data)] := by
        refine ⟨.cons done .nil, ?_, ?_, ?_⟩
        · exact stubs.trans counted.stubs
        · exact skipped.trans (congrArg (· ++ _) counted.skipped)
        · exact sinkNext.trans (congrArg (sink.putAll · _) sinkSame)
      rw [convertClasses_of_ok rfl ended handed]
      rcases ih (index + 1) { next with progress := next.progress.push (index + 1, total) } with
        ⟨after, outcomes, endedRest, completed⟩ | ⟨d, among, why, after, endedRest, halts⟩
      · exact .inl ⟨after, _, endedRest, first.cons input completed⟩
      · exact .inr ⟨d, mem_cons_of_mem c among, why, after, endedRest, halts⟩
    · exact .inr ⟨c, mem_cons_self, why, after, convertClasses_of_error rfl ended, halts⟩

end

/-! ## A whole conversion -/

/-- What is done about a class that cannot be read. -/
def onUnreadable (s : Settings) (failure : Failure) : Option Failure :=
  if s.options.ignoreReadException && !s.strict then none else some (readFailure failure)

/-- An input whose container and classes can be read. -/
structure Readable (s : Settings) (data : ByteArray) (file : Dex.File)
    (collected : Dex.Collected) : Prop where
  opened : (Archive.extract data >>= fun raw => Dex.File.open raw s.options.reading).under
    .container = .ok file
  read : Dex.collect (onUnreadable s) file.events = .ok collected
  whole : collected.failed = none

/-- What the methods of a file refer to. -/
def inputOf (file : Dex.File) (collected : Dex.Collected) : Input :=
  { file, hierarchy := Dex.hierarchy collected.classes }

theorem judgeUnreadable_answers (lenient : s.strict = false) (failure : Failure) (r : Record) :
    ((judgeUnreadable .logging s failure).run r).1 = onUnreadable s failure := by
  unfold judgeUnreadable onUnreadable
  cases s.options.ignoreReadException with
  | true =>
    rw [lenient]
    rfl
  | false => rfl

theorem judgeUnreadable_keeps (s : Settings) (failure : Failure) {start r : Record}
    (same : Stubbed start r 0) :
    Stubbed start ((judgeUnreadable .logging s failure).run r).2 0 := by
  unfold judgeUnreadable
  split
  · exact ⟨same.stubs, same.skipped⟩
  · exact same

theorem readClasses_of_readable (lenient : s.strict = false)
    (readable : Readable s data file collected) :
    ∃ r, (readClasses .logging s data).run.run {} = (.ok (file, collected.classes), r) ∧
      Stubbed {} r 0 := by
  have told := Dex.collectWith_answers (judgeUnreadable_answers lenient) file.events {}
  have same := Dex.collectWith_keeps (Stubbed {} · 0)
    (fun failure _ => judgeUnreadable_keeps s failure) file.events ⟨rfl, rfl⟩
  rw [readable.read] at told
  rcases gathered : (Dex.collectWith (judgeUnreadable .logging s) file.events).run {} with
    ⟨outcome, r⟩
  rw [gathered] at told same
  dsimp only at told
  subst told
  refine ⟨r, ?_, same⟩
  unfold readClasses
  rw [readable.opened]
  refine (run_bind_of_ok gathered).trans ?_
  rw [readable.whole]
  rfl

theorem convertAll_of_readable {σ : Type} (lenient : s.strict = false) (sink : Sink σ) (state : σ)
    (readable : Readable s data file collected) :
    ∃ session : Session σ, session.sink = state ∧ Stubbed {} session.record 0 ∧
      convertAll .logging s none sink data { sink := state } =
        convertClasses .logging s none sink (inputOf file collected) collected.classes.length 0
          collected.classes session := by
  obtain ⟨r, read, same⟩ := readClasses_of_readable lenient readable
  unfold convertAll Session.step
  dsimp only
  rw [read]
  exact ⟨_, rfl, ⟨same.stubs, same.skipped⟩, rfl⟩

/-- Whether an opened file can be read, and a test holds of it. -/
def reads (s : Settings) (test : Dex.File → Dex.Collected → Bool) (opening : Outcome Dex.File) :
    Bool :=
  match opening.under .container with
  | .error _ => false
  | .ok file =>
    match Dex.collect (onUnreadable s) file.events with
    | .error _ => false
    | .ok collected => collected.failed.isNone && test file collected

theorem readable_of_reads {raw : ByteArray} {test : Dex.File → Dex.Collected → Bool}
    (extracted : Archive.extract data = .ok raw)
    (told : reads s test (Dex.File.open raw s.options.reading) = true) :
    ∃ file collected, Readable s data file collected ∧ test file collected = true := by
  unfold reads at told
  split at told
  · cases told
  · rename_i file opened
    split at told
    · cases told
    · rename_i collected read
      rw [Bool.and_eq_true, Option.isNone_iff_eq_none] at told
      refine ⟨file, collected, ⟨?_, read, told.1⟩, told.2⟩
      rw [extracted, Outcome.ok_bind, opened]

/-- A conversion that passes over failures goes through all classes, and a method that fails has a
body that throws, or its class is left out; only a spoiled pool, or a step that cannot go on, ends
it early. -/
theorem run_ends_or_halts {σ : Type} {s : Settings} (lenient : s.strict = false) {sink : Sink σ}
    (willing : sink.Willing) (state : σ) {data : ByteArray} {file : Dex.File}
    {collected : Dex.Collected} (readable : Readable s data file collected) :
    (∃ session outcomes, run s none sink state data = (none, session) ∧
      List.Forall₂ (fun c outcome => ClassDone s (inputOf file collected) c outcome.1 outcome.2)
        collected.classes outcomes ∧
      session.record.report.stubs = (outcomes.map Prod.fst).sum ∧
      session.record.report.skipped = passedOver collected.classes outcomes ∧
      session.sink = (sink.close (sink.putAll state (delivered collected.classes outcomes))).1) ∨
    ∃ c ∈ collected.classes, ∃ why session, run s none sink state data = (some why, session) ∧
      HaltsAt s (inputOf file collected) c why := by
  obtain ⟨start, sinkStart, fresh, unfolded⟩ := convertAll_of_readable lenient sink state readable
  have closed := willing.closes
  have handler : s.handler = .logging := by simp [Settings.handler, lenient]
  unfold run runWith
  rw [handler, unfolded]
  rcases convertClasses_ends (inputOf file collected) willing collected.classes.length 0
      collected.classes start with
    ⟨after, outcomes, ended, completed⟩ | ⟨c, among, why, after, ended, halts⟩
  · rw [ended]
    dsimp only
    rw [closed]
    refine .inl ⟨_, outcomes, rfl, completed.done, ?_, ?_, ?_⟩
    · rw [completed.stubs, fresh.stubs, Nat.add_zero]
      exact Nat.zero_add _
    · rw [completed.skipped, fresh.skipped]
      rfl
    · rw [completed.sink, sinkStart]
  · rw [ended]
    exact .inr ⟨c, among, why, _, rfl, halts⟩

/-- A file with one class, whose only method returns a register that was never set. -/
def unsetRegister : ByteArray := ⟨#[
    100, 101, 120, 10, 48, 51, 53, 0, 108, 28, 128, 190, 144, 19, 75, 52, 254, 7, 4, 113, 244,
    251, 57, 27, 39, 120, 218, 196, 220, 42, 39, 143, 224, 0, 0, 0, 112, 0, 0, 0, 120, 86, 52, 18,
    0, 0, 0, 0, 0, 0, 0, 0, 0, 0, 0, 0, 3, 0, 0, 0, 112, 0, 0, 0, 2, 0, 0, 0, 124, 0, 0, 0, 1, 0,
    0, 0, 132, 0, 0, 0, 0, 0, 0, 0, 0, 0, 0, 0, 1, 0, 0, 0, 144, 0, 0, 0, 1, 0, 0, 0, 152, 0, 0,
    0, 40, 0, 0, 0, 184, 0, 0, 0, 210, 0, 0, 0, 215, 0, 0, 0, 218, 0, 0, 0, 0, 0, 0, 0, 1, 0, 0,
    0, 1, 0, 0, 0, 1, 0, 0, 0, 0, 0, 0, 0, 0, 0, 0, 0, 2, 0, 0, 0, 0, 0, 0, 0, 1, 0, 0, 0, 255,
    255, 255, 255, 0, 0, 0, 0, 255, 255, 255, 255, 0, 0, 0, 0, 202, 0, 0, 0, 0, 0, 0, 0, 1, 0, 0,
    0, 0, 0, 0, 0, 0, 0, 0, 0, 1, 0, 0, 0, 15, 0, 0, 0, 1, 0, 0, 9, 184, 1, 3, 76, 65, 59, 0, 1,
    86, 0, 1, 109, 0, 0, 0, 0]⟩

def unsetRegisterHeader : Dex.Header where
  version := "035"
  checksum := 0xbe801c6c
  fileSize := 224
  headerSize := 112
  strings := ⟨3, 112⟩
  types := ⟨2, 124⟩
  protos := ⟨1, 132⟩
  fields := ⟨0, 0⟩
  methods := ⟨1, 144⟩
  classes := ⟨1, 152⟩
  data := ⟨40, 184⟩

def unsetRegisterBare : Dex.File where
  header := unsetRegisterHeader
  options := Options.standard.reading
  diagnostics := Dex.sumDiagnostics unsetRegister unsetRegisterHeader
  data := unsetRegister

/-- A class without fields, whose one method has no parameters and cannot be lowered. -/
structure FailsOnce (s : Settings) (input : Input) (c : Dex.ClassNode) (m : Dex.Method)
    (failure : Failure) : Prop where
  chosen : s.options.isSkipped (Descriptor.className c.name) = false
  members : c.fields = [] ∧ c.methods = [m]
  present : m.code.isSome = true
  params : m.ref.proto.params = []
  failed : lowered input s.options m = .error (.failed failure)
  short : Pool.isTooLong (stubMessage failure) = false

namespace FailsOnce

variable {input : Input} {c : Dex.ClassNode} {m : Dex.Method} {failure : Failure}
  (fails : FailsOnce s input c m failure)

include fails

theorem codeOf_eq (owner : Text) : codeOf s input owner m pool = .ok (.error failure, pool) := by
  obtain ⟨print, -, always, unfolded⟩ := convertCode_eq s input owner m pool
  rcases ended : print.run.run {} with ⟨outcome, after⟩
  obtain rfl : outcome = .ok () := by rw [← always {}, ended]
  rw [codeOf, unfolded, run_bind_of_ok ended, fails.failed]
  rfl

theorem not_haltsAt {why : Stop} : ¬ HaltsAt s input c why := by
  obtain ⟨fields, methods⟩ := fails.members
  intro halts
  obtain ⟨before, at_, rest, _, _, _, split, done, halts⟩ := halts.among fields
  rw [methods] at split
  obtain ⟨rfl, rfl, rfl⟩ : before = [] ∧ at_ = m ∧ rest = [] := by
    cases before <;> simp_all
  cases done
  obtain ⟨⟨code, there⟩, fine⟩ := stub_ok Pool.sound_empty (declared s c).name rfl (by decide)
    fails.params fails.short
  rcases halts with ⟨-, coded, told, -⟩ | ⟨-, broken, -⟩ | ⟨-, coded, broken⟩
  all_goals rw [fails.codeOf_eq] at *
  · cases coded
    cases fine.symm.trans told
  · cases broken
  · cases coded
    cases there.symm.trans broken

theorem counts {data : Option (List UInt8)} (done : ClassDone s input c n data) : n = 1 := by
  have once : ∀ {written methods after}, MethodsDone s input (declared s c).name written c.methods
      {} methods after n → n = 1 := by
    intro written methods after done
    rw [fails.members.2] at done
    obtain _ | ⟨first, ⟨⟩⟩ := done
    cases first with
    | declared bare => cases bare ▸ fails.present
    | converted _ coded => cases (fails.codeOf_eq _).symm.trans coded
    | stubbed => rfl
  cases done with
  | leftOut chosen => cases fails.chosen.symm.trans chosen
  | written done => exact once done
  | unwritable done => exact once done

end FailsOnce

def failsOnce (s : Settings) (file : Dex.File) (collected : Dex.Collected) : Bool :=
  match collected.classes with
  | [c] =>
    match c.methods with
    | [m] =>
      match lowered (inputOf file collected) s.options m with
      | .error (.failed failure) =>
        !s.options.isSkipped (Descriptor.className c.name) && c.fields.isEmpty && m.code.isSome &&
          m.ref.proto.params.isEmpty && !Pool.isTooLong (stubMessage failure)
      | _ => false
    | _ => false
  | _ => false

theorem exists_failsOnce (told : failsOnce s file collected = true) : ∃ c m failure,
    collected.classes = [c] ∧ FailsOnce s (inputOf file collected) c m failure := by
  unfold failsOnce at told
  split at told
  · rename_i c classes
    split at told
    · rename_i m methods
      split at told
      · rename_i failure failed
        simp only [Bool.and_eq_true, Bool.not_eq_true', List.isEmpty_iff] at told
        obtain ⟨⟨⟨⟨chosen, fields⟩, present⟩, params⟩, short⟩ := told
        exact ⟨c, m, failure, classes, chosen, ⟨fields, methods⟩, present, params, failed, short⟩
      · cases told
    · cases told
  · cases told

theorem reads_unsetRegister : reads { options := .standard } (failsOnce { options := .standard })
    (Dex.File.open unsetRegister Options.standard.reading) = true := by
  have version : ((Dex.front unsetRegister).drop 4).take 3 = "035" := by decide +kernel
  have opened : Dex.File.open unsetRegister Options.standard.reading =
      unsetRegisterBare.withTables :=
    Dex.File.open_of_fills (by decide +kernel) (by decide +kernel) (by decide +kernel) version
      (by decide +kernel) (by decide +kernel) (by decide +kernel) _
  rw [opened]
  decide +kernel

def keeping : Sink (List (Text × List UInt8)) where
  put entries name bytes := (entries ++ [(name, bytes)], none)
  close entries := (entries, none)

/-- A file with a method that fails: the conversion goes to its end, with one stub. -/
theorem run_ends_or_halts_unsetRegister : ∃ file collected session,
    Readable { options := .standard } unsetRegister file collected ∧
    run { options := .standard } none keeping [] unsetRegister = (none, session) ∧
    session.record.report.stubs = 1 := by
  have extracted : Archive.extract unsetRegister = .ok unsetRegister :=
    Archive.extract_of_dex (by decide +kernel) (by decide +kernel)
  obtain ⟨file, collected, readable, told⟩ := readable_of_reads extracted reads_unsetRegister
  obtain ⟨c, m, failure, one, fails⟩ := exists_failsOnce told
  have willing : keeping.Willing := ⟨fun _ _ _ => rfl, fun _ => rfl⟩
  rcases run_ends_or_halts (s := { options := .standard }) rfl willing [] readable with
    ⟨session, outcomes, ended, done, stubs, -⟩ | ⟨d, among, why, session, ended, halts⟩
  · rw [one] at done
    obtain _ | ⟨first, ⟨⟩⟩ := done
    refine ⟨file, collected, session, readable, ended, ?_⟩
    rw [stubs, map_singleton, sum_singleton, fails.counts first]
  · rw [one, mem_singleton] at among
    subst among
    exact absurd halts fails.not_haltsAt

end DexLift.Convert
