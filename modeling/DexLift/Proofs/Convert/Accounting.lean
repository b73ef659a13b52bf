import DexLift.Proofs.Convert.Completeness
import DexLift.Proofs.Dex.ModifiedUtf8
import DexLift.Proofs.Jvm.ClassReading

/-!
# The report of a conversion adds up

Every class is counted once: as written when the sink takes it, as skipped when
it is left out or cannot be written. Every stub stands for one incident about a
method. This holds whatever the handler answers and the sink refuses, and when a
conversion breaks off it holds for the classes before the one at which it does.
-/

namespace DexLift.Convert

open List Descriptor
open Jvm (Pool)
open Recorded (run_bind_of_ok run_bind_of_error run_report run_incident)

/-! ## What one step adds to the report -/

variable {classes : List Dex.ClassNode} {outcomes : List (Option (List UInt8))}

def methodIncidents (r : Report) : Nat := r.incidents.countP fun i => !i.method.isEmpty

structure Report.SameClasses (before after : Report) : Prop where
  classes : after.classes = before.classes
  written : after.written = before.written
  skipped : after.skipped = before.skipped

structure Report.Pays (before after : Report) : Prop where
  stubs : after.stubs + methodIncidents before = before.stubs + methodIncidents after
  methods : after.stubs + before.methods ≤ before.stubs + after.methods

namespace Report

variable {before middle after : Report}

theorem SameClasses.refl (r : Report) : r.SameClasses r := ⟨rfl, rfl, rfl⟩

theorem SameClasses.trans (first : before.SameClasses middle) (second : middle.SameClasses after) :
    before.SameClasses after :=
  ⟨second.classes.trans first.classes, second.written.trans first.written,
    second.skipped.trans first.skipped⟩

theorem Pays.refl (r : Report) : r.Pays r := ⟨rfl, le_rfl⟩

theorem Pays.trans (first : before.Pays middle) (second : middle.Pays after) :
    before.Pays after := by
  have stubs := first.stubs
  have stubsAfter := second.stubs
  have methods := first.methods
  have methodsAfter := second.methods
  exact ⟨by omega, by omega⟩

theorem Pays.of_eq (stubs : after.stubs = before.stubs)
    (incidents : after.incidents = before.incidents) (methods : after.methods = before.methods) :
    before.Pays after := by
  refine ⟨?_, le_of_eq (by rw [stubs, methods])⟩
  rw [stubs, methodIncidents, methodIncidents, incidents]

theorem Pays.of_classIncident (r : Report) (stage : String) (owner error : Text) :
    r.Pays { r with incidents := r.incidents ++ [⟨stage, owner, ∅, error⟩] } := by
  refine ⟨?_, le_rfl⟩
  rw [methodIncidents, methodIncidents, countP_append]
  rfl

end Report

def Recorded.Pays {α : Type} (action : Recorded α) : Prop :=
  ∀ r, r.report.SameClasses (action.run.run r).2.report ∧
    ∀ value, (action.run.run r).1 = .ok value → r.report.Pays (action.run.run r).2.report

namespace Recorded

variable {α β : Type} {first : Recorded α} {next : α → Recorded β}

theorem Pays.pure (value : α) : Pays (Pure.pure value) := fun _ => ⟨.refl _, fun _ _ => .refl _⟩

theorem pays_throw (stop : Stop) : Pays (throw stop : Recorded α) :=
  fun _ => ⟨.refl _, fun _ ended => nomatch ended⟩

theorem Pays.bind (pays : first.Pays) (paysNext : ∀ value, (next value).Pays) :
    (first >>= next).Pays := by
  intro r
  obtain ⟨same, paid⟩ := pays r
  rcases ended : first.run.run r with ⟨stop | value, middle⟩
  · rw [ended] at same
    rw [run_bind_of_error ended]
    exact ⟨same, nofun⟩
  · rw [ended] at same paid
    obtain ⟨sameNext, paidNext⟩ := paysNext value middle
    rw [run_bind_of_ok ended]
    exact ⟨same.trans sameNext, fun last told => (paid value rfl).trans (paidNext last told)⟩

theorem pays_of_report {action : Recorded α}
    (same : ∀ r, (action.run.run r).2.report = r.report) : action.Pays := by
  intro r
  rw [same r]
  exact ⟨.refl _, fun _ _ => .refl _⟩

theorem report_consult (handler : Handler) (question : Question) (r : Record) :
    ((handler.consult question).run.run r).2.report = r.report := by
  have asked : (liftM (handler.ask question) : Recorded _).run.run r =
      (.ok (handler r.asked question).refusal, { r with
        asked := question :: r.asked, log := r.log ++ (handler r.asked question).lines }) := rfl
  unfold Handler.consult
  rw [run_bind_of_ok asked]
  cases (handler r.asked question).refusal <;> rfl

end Recorded

section

variable (handler : Handler) (s : Settings) (input : Input) (owner : Text)

/-- What is left to do for a method that failed: an incident, the handler's leave, and a stub. -/
def convertFailed (m : Dex.Method) (failure : Failure) (pool : Pool) :
    Recorded (Jvm.Method × Pool) := do
  incident ⟨stageOf failure, owner, titleOf m, failure.message⟩
  handler.consult (.ofMethod owner (titleOf m) failure)
  let built := (stub owner m failure).assemble pool
  match built.1.under (.emitting owner (titleOf m)) with
  | .error stop => throw stop
  | .ok code =>
    report fun r => { r with stubs := r.stubs + 1 }
    return (withCode m code, built.2)

theorem isEmpty_titleOf (m : Dex.Method) : (titleOf m).isEmpty = false := by
  have parenthesized : (40 : UInt8) ∈ (titleOf m).bytes := by
    refine mem_append_right _ (mem_append_left _ (mem_append_left _ ?_))
    exact mem_append_left _ (by decide)
  exact isEmpty_eq_false_iff.mpr (ne_nil_of_mem parenthesized)

theorem convertFailed_run (m : Dex.Method) (failure : Failure) (pool : Pool) (r : Record) :
    r.report.SameClasses ((convertFailed handler owner m failure pool).run.run r).2.report ∧
      ∀ value, ((convertFailed handler owner m failure pool).run.run r).1 = .ok value →
        ((convertFailed handler owner m failure pool).run.run r).2.report = { r.report with
          incidents := r.report.incidents ++ [⟨stageOf failure, owner, titleOf m, failure.message⟩]
          stubs := r.report.stubs + 1 } := by
  unfold convertFailed
  rw [run_bind_of_ok (run_incident _ r)]
  have same := Recorded.report_consult handler (.ofMethod owner (titleOf m) failure) { r with
    report := { r.report with incidents :=
      r.report.incidents ++ [⟨stageOf failure, owner, titleOf m, failure.message⟩] } }
  rcases asked : (handler.consult (.ofMethod owner (titleOf m) failure)).run.run { r with
    report := { r.report with incidents :=
      r.report.incidents ++ [⟨stageOf failure, owner, titleOf m, failure.message⟩] } } with
    ⟨stop | passed, middle⟩
  · rw [asked] at same
    rw [run_bind_of_error asked, same]
    exact ⟨⟨rfl, rfl, rfl⟩, nofun⟩
  · rw [asked] at same
    rw [run_bind_of_ok asked]
    dsimp only at same ⊢
    split
    · refine ⟨?_, nofun⟩
      show Report.SameClasses _ middle.report
      rw [same]
      exact ⟨rfl, rfl, rfl⟩
    · rw [run_bind_of_ok (run_report _ middle)]
      refine ⟨?_, fun _ _ => ?_⟩
      · show Report.SameClasses _ { middle.report with stubs := middle.report.stubs + 1 }
        rw [same]
        exact ⟨rfl, rfl, rfl⟩
      · show { middle.report with stubs := middle.report.stubs + 1 } = _
        rw [same]

theorem convertMethod_of_code {m : Dex.Method} (present : m.code.isNone = false) (pool : Pool) :
    convertMethod handler s input owner m pool =
      report (fun r => { r with methods := r.methods + 1 }) >>= fun _ =>
        convertCode s input owner m pool >>= fun
          | (.ok code, pool) => pure (withCode m code, pool)
          | (.error failure, pool) => convertFailed handler owner m failure pool := by
  unfold convertMethod
  rw [present, if_neg Bool.false_ne_true]
  refine bind_congr fun _ => bind_congr fun result => ?_
  rcases result with ⟨failure | code, pool⟩ <;> rfl

theorem pays_convertMethod (m : Dex.Method) (pool : Pool) :
    (convertMethod handler s input owner m pool).Pays := by
  intro r
  cases present : m.code.isNone with
  | true =>
    unfold convertMethod
    rw [present]
    exact Recorded.Pays.pure _ r
  | false =>
    rw [convertMethod_of_code handler s input owner present, run_bind_of_ok (run_report _ r)]
    obtain ⟨middle, ended, same⟩ := convertCode_run s input owner m pool
      { r with report := { r.report with methods := r.report.methods + 1 } }
    rcases outcome : codeOf s input owner m pool with stop | ⟨failure | code, used⟩
    · rw [outcome] at ended
      rw [run_bind_of_error ended, same]
      exact ⟨⟨rfl, rfl, rfl⟩, nofun⟩
    · rw [outcome] at ended
      rw [run_bind_of_ok ended]
      obtain ⟨classes, stubbed⟩ := convertFailed_run handler owner m failure used middle
      rw [same] at classes stubbed
      refine ⟨⟨classes.classes, classes.written, classes.skipped⟩, fun value told => ?_⟩
      rw [stubbed value told]
      refine ⟨?_, ?_⟩
      · simp [methodIncidents, isEmpty_titleOf]
        omega
      · dsimp only
        omega
    · rw [outcome] at ended
      rw [run_bind_of_ok ended]
      have ended : ((pure (withCode m code, used) : Recorded _).run.run middle).2.report =
          { r.report with methods := r.report.methods + 1 } := same
      dsimp only
      rw [ended]
      exact ⟨⟨rfl, rfl, rfl⟩, fun _ _ => ⟨rfl, Nat.le_succ _⟩⟩

theorem pays_convertMethods (ms : List Dex.Method) (pool : Pool) :
    (convertMethods handler s input owner ms pool).Pays := by
  induction ms generalizing pool with
  | nil => exact Recorded.Pays.pure _
  | cons m ms ih =>
    unfold convertMethods
    exact (pays_convertMethod handler s input owner m pool).bind fun _ =>
      (ih _).bind fun _ => Recorded.Pays.pure _

theorem pays_writeClass (c : Dex.ClassNode) (encoded : Outcome (List UInt8 × Pool)) :
    (writeClass s handler c encoded).Pays := by
  rcases encoded with (failure | - | -) | ⟨bytes, pool⟩
  · have incidents : (incident ⟨"emit", (declared s c).name, ∅, failure.message⟩).Pays :=
      fun r => ⟨⟨rfl, rfl, rfl⟩, fun _ _ => .of_classIncident r.report ..⟩
    have asks := Recorded.pays_of_report (Recorded.report_consult handler
      (.ofClass (failure.under (.emitting (declared s c).name ∅))))
    unfold writeClass
    exact incidents.bind fun _ => asks.bind fun _ => Recorded.Pays.pure _
  · exact Recorded.pays_throw _
  · exact Recorded.pays_throw _
  · exact Recorded.Pays.pure _

theorem pays_convertClass (c : Dex.ClassNode) : (convertClass handler s input c).Pays := by
  rw [convertClass]
  exact (pays_convertMethods handler s input _ _ _).bind fun written =>
    pays_writeClass handler s c _

theorem report_judgeUnreadable (failure : Failure) (r : Record) :
    ((judgeUnreadable handler s failure).run r).2.report = r.report ∨
      ∃ owner error, ((judgeUnreadable handler s failure).run r).2.report = { r.report with
        incidents := r.report.incidents ++ [⟨"read", owner, ∅, error⟩] } := by
  unfold judgeUnreadable
  split
  · have asked : (handler.ask (.ofClass (readFailure failure))).run r =
        ((handler r.asked (.ofClass (readFailure failure))).refusal, { r with
          asked := .ofClass (readFailure failure) :: r.asked
          log := r.log ++ (handler r.asked (.ofClass (readFailure failure))).lines }) := rfl
    rw [StateT.run_bind, asked]
    cases (handler r.asked (.ofClass (readFailure failure))).refusal with
    | some refusal => exact .inl rfl
    | none => exact .inr ⟨_, _, rfl⟩
  · exact .inl rfl

theorem pays_readClasses (data : ByteArray) : (readClasses handler s data).Pays := by
  unfold readClasses
  split
  · exact Recorded.pays_throw _
  · next file opened =>
    have gathers : Recorded.Pays
        (ExceptT.mk (Dex.collectWith (judgeUnreadable handler s) file.events)) := by
      intro r
      have kept := Dex.collectWith_keeps
        (fun later : Record => r.report.SameClasses later.report ∧ r.report.Pays later.report)
        (fun failure later paid => by
          rcases report_judgeUnreadable handler s failure later with same | ⟨owner, error, added⟩
          · rwa [same]
          · rw [added]
            exact ⟨paid.1.trans ⟨rfl, rfl, rfl⟩, paid.2.trans (.of_classIncident ..)⟩)
        file.events ⟨.refl r.report, .refl r.report⟩
      exact ⟨kept.1, fun _ _ => kept.2⟩
    refine gathers.bind fun collected => ?_
    split
    · exact Recorded.pays_throw _
    · exact Recorded.Pays.pure _

end

/-! ## What becomes of the classes -/

def entryName (c : Dex.ClassNode) : Text := Descriptor.className c.name ++ ".class"

def puts (classes : List Dex.ClassNode) (outcomes : List (Option (List UInt8))) :
    List (Text × List UInt8) :=
  (classes.zip outcomes).filterMap fun (c, data) => data.map fun bytes => (entryName c, bytes)

def leftOut (classes : List Dex.ClassNode) (outcomes : List (Option (List UInt8))) : List Text :=
  (classes.zip outcomes).filterMap fun (c, data) =>
    if data.isNone then some (Descriptor.className c.name) else none

section

variable (c : Dex.ClassNode) (classes : List Dex.ClassNode) (data : Option (List UInt8))
  (outcomes : List (Option (List UInt8)))

theorem puts_cons :
    puts (c :: classes) (data :: outcomes) = puts [c] [data] ++ puts classes outcomes :=
  filterMap_append (l := [(c, data)])

theorem leftOut_cons :
    leftOut (c :: classes) (data :: outcomes) = leftOut [c] [data] ++ leftOut classes outcomes :=
  filterMap_append (l := [(c, data)])

end

theorem length_puts_add_leftOut (paired : classes.length = outcomes.length) :
    (puts classes outcomes).length + (leftOut classes outcomes).length = classes.length := by
  induction classes generalizing outcomes with
  | nil => rfl
  | cons c classes ih =>
    rcases outcomes with _ | ⟨data, outcomes⟩
    · cases paired
    · have rest := ih (Nat.succ.inj paired)
      have one : (puts [c] [data]).length + (leftOut [c] [data]).length = 1 := by
        cases data <;> rfl
      rw [puts_cons, leftOut_cons, length_append, length_append, length_cons]
      omega

theorem mem_of_mem_leftOut {name : Text} (left : name ∈ leftOut classes outcomes) :
    name ∈ classes.map fun c => className c.name := by
  obtain ⟨⟨c, data⟩, among, told⟩ := mem_filterMap.mp left
  dsimp only at told
  split at told
  · cases told
    exact mem_map_of_mem (of_mem_zip among).1
  · cases told

theorem map_fst_puts (paired : classes.length = outcomes.length)
    (distinct : (classes.map fun c => className c.name).Nodup) :
    (puts classes outcomes).map Prod.fst =
      (classes.filter fun c => className c.name ∉ leftOut classes outcomes).map entryName := by
  induction classes generalizing outcomes with
  | nil => rfl
  | cons c classes ih =>
    rcases outcomes with _ | ⟨data, outcomes⟩
    · cases paired
    · rw [map_cons, nodup_cons] at distinct
      have rest := ih (Nat.succ.inj paired) distinct.2
      have kept : className c.name ∉ leftOut classes outcomes :=
        fun left => distinct.1 (mem_of_mem_leftOut left)
      rw [puts_cons, leftOut_cons, map_append, rest, filter_cons]
      have others : ∀ other ∈ classes, className other.name ≠ className c.name :=
        fun other among equal => distinct.1 (equal ▸ mem_map_of_mem among)
      cases data with
      | none =>
        have gone : leftOut [c] [none] = [className c.name] := rfl
        rw [gone, if_neg (by simp)]
        refine congrArg (map entryName) (filter_congr fun other among => ?_)
        simp [others other among]
      | some bytes =>
        have gone : leftOut [c] [some bytes] = [] := rfl
        rw [gone, nil_append, if_pos (by simpa using kept)]
        rfl

section Sinks

variable {σ : Type}

inductive Sink.Takes (sink : Sink σ) : σ → List (Text × List UInt8) → σ → Prop
  | none (state : σ) : Takes sink state [] state
  | put {state next last : σ} {name : Text} {bytes : List UInt8}
    {entries : List (Text × List UInt8)} (taken : sink.put state name bytes = (next, Option.none))
    (rest : Takes sink next entries last) : Takes sink state ((name, bytes) :: entries) last

variable {state : σ}

theorem Sink.Takes.append {sink : Sink σ} {state middle last : σ}
    {first second : List (Text × List UInt8)} (takes : sink.Takes state first middle)
    (takesNext : sink.Takes middle second last) : sink.Takes state (first ++ second) last := by
  induction takes with
  | none => exact takesNext
  | put taken _ ih => exact .put taken (ih takesNext)

/-- What is recorded and delivered when some classes are done, the first of them at a position. -/
structure Ledger (sink : Sink σ) (total index : Nat) (done : List Dex.ClassNode)
    (outcomes : List (Option (List UInt8))) (before after : Session σ) : Prop where
  paired : done.length = outcomes.length
  classes : after.record.report.classes = before.record.report.classes + done.length
  written : after.record.report.written =
    before.record.report.written + (puts done outcomes).length
  skipped : after.record.report.skipped = before.record.report.skipped ++ leftOut done outcomes
  pays : before.record.report.Pays after.record.report
  takes : sink.Takes before.sink (puts done outcomes) after.sink
  progress : after.progress.toList =
    before.progress.toList ++ (range' (index + 1) done.length).map fun k => (k, total)

theorem Ledger.nil (sink : Sink σ) (total index : Nat) (session : Session σ) :
    Ledger sink total index [] [] session session :=
  ⟨rfl, rfl, rfl, (append_nil _).symm, .refl _, .none _, (append_nil _).symm⟩

theorem Ledger.cons {sink : Sink σ} {total index : Nat} {c : Dex.ClassNode}
    {data : Option (List UInt8)} {done : List Dex.ClassNode}
    {outcomes : List (Option (List UInt8))} {before middle after : Session σ}
    (first : Ledger sink total index [c] [data] before middle)
    (others : Ledger sink total (index + 1) done outcomes middle after) :
    Ledger sink total index (c :: done) (data :: outcomes) before after where
  paired := congrArg Nat.succ others.paired
  classes := by
    rw [others.classes, first.classes]
    simp only [length_cons, length_nil]
    omega
  written := by
    rw [others.written, first.written, puts_cons c done, length_append, Nat.add_assoc]
  skipped := by rw [others.skipped, first.skipped, leftOut_cons c done, append_assoc]
  pays := first.pays.trans others.pays
  takes := by
    rw [puts_cons c done]
    exact first.takes.append others.takes
  progress := by
    rw [others.progress, first.progress, append_assoc]
    rfl

/-- A conversion breaks off behind the classes that are done: at most one more class is counted, and
the sink is as it was or has refused an entry. -/
structure BreaksOff (sink : Sink σ) (why : Stop) (middle after : Session σ) : Prop where
  least : middle.record.report.classes ≤ after.record.report.classes
  most : after.record.report.classes ≤ middle.record.report.classes + 1
  written : after.record.report.written = middle.record.report.written
  skipped : after.record.report.skipped = middle.record.report.skipped
  progress : after.progress = middle.progress
  sink : after.sink = middle.sink ∨ ∃ name bytes failure,
    sink.put middle.sink name bytes = (after.sink, some failure) ∧
    why = .failed (failure.under (.writing name))

theorem BreaksOff.refl (sink : Sink σ) (why : Stop) (session : Session σ) :
    BreaksOff sink why session session :=
  ⟨le_rfl, Nat.le_succ _, rfl, rfl, rfl, .inl rfl⟩

variable (handler : Handler) (s : Settings) (input : Input)

theorem attempt_counts (session : Session σ) (c : Dex.ClassNode) :
    ∃ outcome middle, attempt s input handler session c = (outcome, middle) ∧
      middle.sink = session.sink ∧ middle.progress = session.progress ∧
      Report.SameClasses { session.record.report with
        classes := session.record.report.classes + 1 } middle.record.report ∧
      ∀ data, outcome = .ok data → session.record.report.Pays middle.record.report := by
  unfold attempt
  dsimp only
  split
  · exact ⟨_, _, rfl, rfl, rfl, .refl _, fun _ _ => .of_eq rfl rfl rfl⟩
  · obtain ⟨same, paid⟩ := pays_convertClass handler s input c
      (session.note (report fun r => { r with classes := r.classes + 1 })).record
    refine ⟨_, _, rfl, rfl, rfl, same, fun data told => ?_⟩
    have counted : session.record.report.Pays
        { session.record.report with classes := session.record.report.classes + 1 } :=
      .of_eq rfl rfl rfl
    exact counted.trans (paid data told)

def recordWritten (c : Dex.ClassNode) : Recorded Unit := do
  report fun r => { r with written := r.written + 1 }
  log .debug "converted" [("class", Descriptor.className c.name)]

theorem deliver_some (sink : Sink σ) (c : Dex.ClassNode) (bytes : List UInt8)
    (session : Session σ) :
    deliver sink (className c.name) (some bytes) session =
      let after : Session σ :=
        { session with sink := (sink.put session.sink (entryName c) bytes).1 }
      match (sink.put session.sink (entryName c) bytes).2 with
      | some failure => (some (.failed (failure.under (.writing (entryName c)))), after)
      | none => (none, after.note (recordWritten c)) := rfl

/-- A class that is done is written or left out, unless the sink refuses it. -/
theorem deliver_counts (sink : Sink σ) (c : Dex.ClassNode) (data : Option (List UInt8))
    (session : Session σ) :
    (∃ next, deliver sink (className c.name) data session = (none, next) ∧
      next.progress = session.progress ∧
      next.record.report = { session.record.report with
        written := session.record.report.written + (puts [c] [data]).length
        skipped := session.record.report.skipped ++ leftOut [c] [data] } ∧
      sink.Takes session.sink (puts [c] [data]) next.sink) ∨
    ∃ bytes failure state, sink.put session.sink (entryName c) bytes = (state, some failure) ∧
      deliver sink (className c.name) data session =
        (some (.failed (failure.under (.writing (entryName c)))),
          { session with sink := state }) := by
  cases data with
  | none => exact .inl ⟨_, rfl, rfl, rfl, .none _⟩
  | some bytes =>
    rw [deliver_some]
    cases refused : (sink.put session.sink (entryName c) bytes).2 with
    | none =>
      refine .inl ⟨_, rfl, rfl, ?_, .put (Prod.ext rfl refused) (.none _)⟩
      exact congrArg (fun skipped : List Text => ({ session.record.report with
        written := session.record.report.written + 1, skipped } : Report)) (append_nil _).symm
    | some failure => exact .inr ⟨bytes, failure, _, Prod.ext rfl refused, rfl⟩

variable (cancelAfter : Option Nat) (sink : Sink σ) (total : Nat)

theorem convertClasses_step (index : Nat) (c : Dex.ClassNode) (rest : List Dex.ClassNode)
    (session : Session σ) :
    (∃ data next, Ledger sink total index [c] [data] session next ∧
      convertClasses handler s cancelAfter sink input total index (c :: rest) session =
        convertClasses handler s cancelAfter sink input total (index + 1) rest next) ∨
    ∃ why after, BreaksOff sink why session after ∧
      convertClasses handler s cancelAfter sink input total index (c :: rest) session =
        (some why, after) := by
  cases goes : cancelAfter.any (· ≤ index) with
  | true =>
    refine .inr ⟨_, _, ?_, by rw [convertClasses, goes, if_pos rfl]⟩
    exact ⟨Nat.le_refl _, Nat.le_succ _, rfl, rfl, rfl, .inl rfl⟩
  | false =>
    obtain ⟨outcome, middle, tried, sinkSame, progressSame, same, paid⟩ :=
      attempt_counts handler s input session c
    cases outcome with
    | error why =>
      refine .inr ⟨why, middle, ?_, convertClasses_of_error goes tried⟩
      exact ⟨by rw [same.classes]; exact Nat.le_succ _, Nat.le_of_eq same.classes, same.written,
        same.skipped, progressSame, .inl sinkSame⟩
    | ok data =>
      rcases deliver_counts sink c data middle with
        ⟨next, handed, progressNext, reportNext, takes⟩ | ⟨bytes, failure, state, refused, handed⟩
      · refine .inl ⟨data, _, ?_, convertClasses_of_ok goes tried handed⟩
        rw [sinkSame] at takes
        have pays : middle.record.report.Pays next.record.report := by
          rw [reportNext]
          exact .of_eq rfl rfl rfl
        exact {
          paired := rfl
          classes := by rw [reportNext]; exact same.classes
          written := by rw [reportNext]; exact congrArg (· + _) same.written
          skipped := by rw [reportNext]; exact congrArg (· ++ _) same.skipped
          pays := (paid data rfl).trans pays
          takes
          progress := by
            rw [Array.toList_push, progressNext, progressSame]
            rfl }
      · refine .inr ⟨.failed (failure.under (.writing (entryName c))),
          { middle with sink := state }, ?_, ?_⟩
        · exact ⟨by rw [same.classes]; exact Nat.le_succ _, Nat.le_of_eq same.classes,
            same.written, same.skipped, progressSame,
            .inr ⟨_, bytes, failure, sinkSame ▸ refused, rfl⟩⟩
        · rw [convertClasses, goes, if_neg Bool.false_ne_true, tried]
          dsimp only
          rw [handed]

theorem convertClasses_ledger (index : Nat) (classes : List Dex.ClassNode) (session : Session σ) :
    (∃ outcomes after, Ledger sink total index classes outcomes session after ∧
      convertClasses handler s cancelAfter sink input total index classes session =
        (none, after)) ∨
    ∃ done rest outcomes middle why after, classes = done ++ rest ∧
      Ledger sink total index done outcomes session middle ∧ BreaksOff sink why middle after ∧
      convertClasses handler s cancelAfter sink input total index classes session =
        (some why, after) := by
  induction classes generalizing index session with
  | nil => exact .inl ⟨[], session, .nil sink total index session, rfl⟩
  | cons c rest ih =>
    rcases convertClasses_step handler s input cancelAfter sink total index c rest session with
      ⟨data, next, first, goesOn⟩ | ⟨why, after, breaks, ended⟩
    · rw [goesOn]
      rcases ih (index + 1) next with
        ⟨outcomes, after, others, ended⟩ |
          ⟨done, behind, outcomes, middle, why, after, rfl, others, breaks, ended⟩
      · exact .inl ⟨_, after, first.cons others, ended⟩
      · exact .inr ⟨c :: done, behind, _, middle, why, after, rfl, first.cons others, breaks, ended⟩
    · exact .inr ⟨[], c :: rest, [], session, why, after, rfl, .nil sink total index session,
        breaks, ended⟩

/-- The account of a conversion that goes to its end: each class is written or left out. -/
structure AddsUp (state : σ) (tree : List Dex.ClassNode)
    (outcomes : List (Option (List UInt8))) (session : Session σ) : Prop where
  paired : tree.length = outcomes.length
  classes : session.record.report.classes = tree.length
  sum : session.record.report.classes =
    session.record.report.written + session.record.report.skipped.length
  stubs : session.record.report.stubs = methodIncidents session.record.report
  methods : session.record.report.stubs ≤ session.record.report.methods
  written : session.record.report.written = (puts tree outcomes).length
  skipped : session.record.report.skipped = leftOut tree outcomes
  named : (tree.map fun c => Descriptor.className c.name).Nodup →
    (puts tree outcomes).map Prod.fst =
      (tree.filter fun c => Descriptor.className c.name ∉ session.record.report.skipped).map
        entryName
  delivered : ∃ last, sink.Takes state (puts tree outcomes) last ∧
    sink.close last = (session.sink, none)
  progress : session.progress.toList = (range' 1 tree.length).map fun k => (k, tree.length)

/-- The account of a conversion that stops behind the classes that are done. The sink is closed
after the entries it took, or after one more that it refused. -/
structure StopsShort (state : σ) (done : List Dex.ClassNode)
    (outcomes : List (Option (List UInt8))) (session : Session σ) : Prop where
  paired : done.length = outcomes.length
  least : done.length ≤ session.record.report.classes
  most : session.record.report.classes ≤ done.length + 1
  written : session.record.report.written = (puts done outcomes).length
  skipped : session.record.report.skipped = leftOut done outcomes
  delivered : ∃ last, sink.Takes state (puts done outcomes) last ∧
    (session.sink = (sink.close last).1 ∨ ∃ name bytes failure refused,
      sink.put last name bytes = (refused, some failure) ∧
      session.sink = (sink.close refused).1)
  progress : session.progress.toList = (range' 1 done.length).map fun k => (k, total)

/-- A session in which no class is counted yet. -/
structure Fresh (state : σ) (session : Session σ) : Prop where
  sink : session.sink = state
  same : Report.SameClasses {} session.record.report
  pays : Report.Pays {} session.record.report
  progress : session.progress = #[]

variable {sink total}

theorem Ledger.addsUp {last : σ} {tree : List Dex.ClassNode} {start after : Session σ}
    (fresh : Fresh state start) (ledger : Ledger sink tree.length 0 tree outcomes start after)
    (closed : sink.close after.sink = (last, none)) :
    AddsUp sink state tree outcomes { after with sink := last } := by
  have classes : after.record.report.classes = tree.length := by
    rw [ledger.classes, fresh.same.classes, Nat.zero_add]
  have written : after.record.report.written = (puts tree outcomes).length := by
    rw [ledger.written, fresh.same.written, Nat.zero_add]
  have skipped : after.record.report.skipped = leftOut tree outcomes := by
    rw [ledger.skipped, fresh.same.skipped]
    rfl
  have pays : Report.Pays {} after.record.report := fresh.pays.trans ledger.pays
  exact {
    paired := ledger.paired
    classes
    sum := by rw [classes, written, skipped, length_puts_add_leftOut ledger.paired]
    stubs := pays.stubs.trans (Nat.zero_add _)
    methods := by simpa using pays.methods
    written
    skipped
    named := fun distinct => by rw [skipped]; exact map_fst_puts ledger.paired distinct
    delivered := ⟨after.sink, fresh.sink ▸ ledger.takes, closed⟩
    progress := by rw [ledger.progress, fresh.progress]; rfl }

theorem Ledger.stopsShort {done : List Dex.ClassNode} {start middle after : Session σ} {why : Stop}
    (fresh : Fresh state start) (ledger : Ledger sink total 0 done outcomes start middle)
    (breaks : BreaksOff sink why middle after) :
    StopsShort sink total state done outcomes { after with sink := (sink.close after.sink).1 } := by
  have classes : middle.record.report.classes = done.length := by
    rw [ledger.classes, fresh.same.classes, Nat.zero_add]
  have takes : sink.Takes state (puts done outcomes) middle.sink := fresh.sink ▸ ledger.takes
  refine {
    paired := ledger.paired
    least := classes ▸ breaks.least
    most := classes ▸ breaks.most
    written := by rw [breaks.written, ledger.written, fresh.same.written, Nat.zero_add]
    skipped := by rw [breaks.skipped, ledger.skipped, fresh.same.skipped]; rfl
    delivered := ⟨middle.sink, takes, ?_⟩
    progress := by rw [breaks.progress, ledger.progress, fresh.progress]; rfl }
  rcases breaks.sink with same | ⟨name, bytes, failure, refused, -⟩
  · exact .inl (congrArg (fun state => (sink.close state).1) same)
  · exact .inr ⟨name, bytes, failure, after.sink, refused, rfl⟩

variable (sink)

/-- A conversion goes to its end and its report adds up, or it stops: because the classes cannot be
read, and then nothing is counted and nothing written, or behind some of them, and then the report
adds up for these. -/
theorem runWith_adds_up (state : σ) (data : ByteArray) :
    (∃ session file classes r outcomes,
      runWith handler s cancelAfter sink state data = (none, session) ∧
      (readClasses handler s data).run.run {} = (.ok (file, classes), r) ∧
      AddsUp sink state classes outcomes session) ∨
    (∃ why session r, runWith handler s cancelAfter sink state data = (some why, session) ∧
      (readClasses handler s data).run.run {} = (.error why, r) ∧
      session.record.report.classes = 0 ∧ StopsShort sink 0 state [] [] session) ∨
    ∃ why session file done rest r outcomes,
      runWith handler s cancelAfter sink state data = (some why, session) ∧
      (readClasses handler s data).run.run {} = (.ok (file, done ++ rest), r) ∧
      StopsShort sink (done ++ rest).length state done outcomes session := by
  obtain ⟨same, paid⟩ := pays_readClasses handler s data {}
  rcases read : (readClasses handler s data).run.run {} with ⟨stop | ⟨file, classes⟩, r⟩
  · rw [read] at same
    refine .inr (.inl ⟨stop, { sink := (sink.close state).1, record := r }, r, ?_, rfl,
      same.classes, ?_⟩)
    · unfold runWith convertAll Session.step
      dsimp only
      rw [read]
      rfl
    · exact ⟨rfl, Nat.zero_le _, by rw [same.classes]; exact Nat.zero_le _, same.written,
        same.skipped, ⟨state, .none _, .inl rfl⟩, rfl⟩
  · rw [read] at same paid
    have begun : Report.Pays {} r.report := paid _ rfl
    -- The session in which the first class is converted.
    let start : Session σ := ({ sink := state, record := r } : Session σ).note do
      report fun report => { report with version := file.header.version }
      log .debug "dex loaded" [("version", file.header.version),
        ("classes", Text.ofNat classes.length)]
    let input : Input := { file, hierarchy := Dex.hierarchy classes }
    have converted : convertAll handler s cancelAfter sink data { sink := state } =
        convertClasses handler s cancelAfter sink input classes.length 0 classes start := by
      unfold convertAll Session.step
      dsimp only
      rw [read]
    have closed : runWith handler s cancelAfter sink state data =
        let ended := convertClasses handler s cancelAfter sink input classes.length 0 classes start
        (ended.1 <|> (sink.close ended.2.sink).2.map fun failure =>
            Stop.failed (failure.under (.writing ∅)),
          { ended.2 with sink := (sink.close ended.2.sink).1 }) := by
      unfold runWith
      rw [converted]
    have fresh : Fresh state start :=
      ⟨rfl, ⟨same.classes, same.written, same.skipped⟩, begun.trans (.of_eq rfl rfl rfl), rfl⟩
    rcases convertClasses_ledger handler s input cancelAfter sink classes.length 0 classes start
      with
      ⟨outcomes, after, ledger, ended⟩ |
        ⟨done, rest, outcomes, middle, why, after, rfl, ledger, breaks, ended⟩
    · rw [ended] at closed
      rcases closing : sink.close after.sink with ⟨last, _ | failure⟩
      · dsimp only at closed
        rw [closing] at closed
        exact .inl ⟨_, file, classes, r, outcomes, closed, rfl, ledger.addsUp fresh closing⟩
      · have short := ledger.stopsShort fresh
          (.refl sink (.failed (failure.under (.writing ∅))) after)
        dsimp only at closed
        rw [closing] at closed short
        refine .inr (.inr ⟨_, _, file, classes, [], r, outcomes, closed, ?_, ?_⟩)
        · rw [append_nil]
        · rwa [append_nil]
    · rw [ended] at closed
      exact .inr (.inr ⟨why, _, file, done, rest, r, outcomes, closed, rfl,
        ledger.stopsShort fresh breaks⟩)

end Sinks

theorem not_haltsAt_of_bare {s : Settings} {input : Input} {c : Dex.ClassNode} {why : Stop}
    (bare : c.fields = [] ∧ c.methods = []) : ¬ HaltsAt s input c why := by
  intro halts
  obtain ⟨before, m, rest, _, _, _, split, -⟩ := halts.among bare.1
  simp [bare.2] at split

def twin (super : Text) : Dex.ClassNode :=
  { definition := { index := 0, name := "LA;", access := ⟨1⟩, super } }

def longName : Text := ⟨replicate 65536 97⟩

/-- Two definitions of one class. The first superclass has a name too long to be written. -/
def twins : List Dex.ClassNode := [twin longName, twin ∅]

def twinsInput : Input := { file := unsetRegisterBare, hierarchy := Dex.hierarchy twins }

/-- Their names are not distinct: the sink gets an entry for a class among those skipped. -/
theorem puts_skipped_twins : ∃ session bytes,
    convertClasses .logging { options := {} } none keeping twinsInput 2 0 twins { sink := [] } =
      (none, session) ∧
    session.record.report.skipped = ["A"] ∧ session.sink = [(("A.class" : Text), bytes)] := by
  have willing : keeping.Willing := ⟨fun _ _ _ => rfl, fun _ => rfl⟩
  rcases convertClasses_ends (s := { options := {} }) twinsInput willing 2 0 twins { sink := [] } with
    ⟨after, outcomes, ended, completed⟩ | ⟨c, among, why, after, ended, halts⟩
  · obtain _ | @⟨_, ⟨_, data⟩, _, _, first, _ | @⟨_, ⟨_, other⟩, _, _, second, ⟨⟩⟩⟩ := completed.done
    have refused : data = none := by
      cases first with
      | @written methods pool final n bytes done encoded =>
        have first : longName.first? = some 97 := rfl
        have some : longName.isEmpty = false := rfl
        have length : longName.length = 65536 := length_replicate
        have kept := (Mutf8.length_encode longName).1
        have short := Jvm.ClassFile.not_isTooLong_super encoded
        have super : (classFile { options := {} } (twin longName) methods pool).super =
            longName := by
          simp [classFile, declared, Dex.ClassDef.declaration, twin, Descriptor.className,
            Descriptor.isClassShape, Descriptor.letterL, first, some]
        rw [super, Pool.isTooLong, length, Bool.and_eq_false_iff, decide_eq_false_iff_not,
          decide_eq_false_iff_not] at short
        omega
      | _ => rfl
    have taken : ∃ bytes, other = some bytes := by
      cases second with
      | leftOut chosen => cases chosen
      | written => exact ⟨_, rfl⟩
      | unwritable done failed =>
        cases done
        have takes := Jvm.ClassFile.takes_encodeBody
          (c := classFile { options := {} } (twin ∅) [] {})
          ⟨rfl, rfl, rfl, rfl⟩ ⟨by decide, by decide⟩ (.pure _) (.pure _)
        obtain ⟨bytes, p, encoded, -⟩ := Jvm.ClassFile.encode_of_takes takes rfl (by decide)
        cases encoded.symm.trans failed
    subst refused
    obtain ⟨bytes, rfl⟩ := taken
    exact ⟨after, bytes, ended, completed.skipped, completed.sink⟩
  · refine absurd halts (not_haltsAt_of_bare ?_)
    rcases mem_pair.mp among with rfl | rfl <;> exact ⟨rfl, rfl⟩

end DexLift.Convert
