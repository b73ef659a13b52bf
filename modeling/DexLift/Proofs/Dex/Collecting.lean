import DexLift.Archive.Zip
import DexLift.Dex.Tree
import DexLift.Proofs.Dalvik.Addresses

/-!
# Opening a file

Data that are no archive are the file itself. A file that says it is as long as the
data it is read from is opened on these data as they are: its tables are read from
the data themselves and not from a copy.
-/

namespace DexLift

theorem Archive.extract_of_dex {data : ByteArray} (long : 3 ≤ data.size)
    (marked : (Text.ofByteArray (data.extract 0 3)).startsWith "dex" = true) :
    extract data = .ok data := by
  unfold extract
  dsimp only
  rw [if_neg (Nat.not_lt.mpr long), if_pos marked]
  rfl

namespace Dex

deriving instance DecidableEq for Section, Header

theorem File.open_of_fills {data : ByteArray} {header : Header} {version : Text}
    (long : headerBytes ≤ data.size) (magic : (front data).startsWith "dex\n" = true)
    (ended : (front data).bytes[7]? = some 0) (told : ((front data).drop 4).take 3 = version)
    (supported : version ∈ supportedVersions)
    (read : (readHeader version data.size (Cursor.ofOffset data 8)).1 = .ok header)
    (fills : header.fileSize.toNat = data.size) (options : ReadOptions) :
    File.open data options =
      File.withTables { header, options, diagnostics := sumDiagnostics data header, data } := by
  have marked : (!(front data).startsWith "dex\n" || (front data).bytes[7]? != some 0) = false := by
    simp [magic, ended]
  have known : (!supportedVersions.contains version) = false := by
    simpa using supported
  unfold File.open
  dsimp only
  rw [told, if_neg (Nat.not_lt.mpr long), marked, known, read, Outcome.ok_bind, fills,
    ByteArray.extract_zero_size]
  rfl

end Dex

end DexLift

/-!
# Collecting the classes of a file

A file is told class by class, and a class that cannot be read is told by one
failure and by none of its members. So what is collected are whole classes: no
member ever stands outside a class, whatever is done about the failures. When
they are ignored, the classes are those that can be read and the failures those
of the others, both in the order of the file; else the classes are those before
the first that cannot be read.
-/

namespace DexLift.Dex

open List

/-! ## Deciding about failures -/

variable {answer : Failure → Option Failure} {left index count : Nat} {node : ClassNode}
  {failure : Failure} {later : List (Outcome ClassNode)} {α : Type} {cursor : Cursor}
  {directory : AnnotationsDirectory} {values : List Value} {fields : List Field}
  {methods : List Method} {collected : Collected} {read : List ClassNode}

section Deciding

variable {η : Type} {decide : Failure → StateM η (Option Failure)}

theorem collectFrom_keeps (Keeps : η → Prop)
    (keeps : ∀ failure memory, Keeps memory → Keeps ((decide failure).run memory).2)
    (events : List EventResult) (state : Collection) {memory : η} (start : Keeps memory) :
    Keeps ((collectFrom decide events state).run memory).2 := by
  induction events generalizing state memory with
  | nil => exact start
  | cons event events ih =>
    rcases event with (failure | - | -) | event
    · rw [collectFrom, StateT.run_bind]
      have kept := keeps failure memory start
      rcases asked : (decide failure).run memory with ⟨_ | refusal, later⟩
      · rw [asked] at kept
        exact ih _ kept
      · rwa [asked] at kept
    · exact start
    · exact start
    · rw [collectFrom]
      split
      · exact start
      · exact ih _ start

theorem collectWith_keeps (Keeps : η → Prop)
    (keeps : ∀ failure memory, Keeps memory → Keeps ((decide failure).run memory).2)
    (events : List EventResult) {memory : η} (start : Keeps memory) :
    Keeps ((collectWith decide events).run memory).2 := by
  rw [collectWith, StateT.run_bind]
  exact collectFrom_keeps Keeps keeps events {} start

section

variable (answers : ∀ failure memory, ((decide failure).run memory).1 = answer failure)
  (events : List EventResult)

include answers

theorem collectFrom_answers (state : Collection) (memory : η) :
    ((collectFrom decide events state).run memory).1 =
      ((collectFrom (fun failure => (pure (answer failure) : StateM Unit _)) events state).run
        ()).1 := by
  induction events generalizing state memory with
  | nil => rfl
  | cons event events ih =>
    rcases event with (failure | - | -) | event
    · rw [collectFrom, collectFrom, StateT.run_bind, StateT.run_bind, StateT.run_pure]
      have answered := answers failure memory
      rcases asked : (decide failure).run memory with ⟨told, later⟩
      rw [asked] at answered
      dsimp only at answered
      rw [answered]
      cases answer failure with
      | none => exact ih _ later
      | some refusal => rfl
    · rfl
    · rfl
    · rw [collectFrom, collectFrom]
      split
      · rfl
      · exact ih _ memory

theorem collectWith_answers (memory : η) :
    ((collectWith decide events).run memory).1 = collect answer events := by
  unfold collect collectWith
  rw [StateT.run_bind, StateT.run_bind]
  exact congrArg (Except.map fun collected : Collected =>
    { collected with classes := collected.classes.map ClassNode.inOrder })
    (collectFrom_answers answers events {} memory)

end

end Deciding

/-! ## What reading the classes comes to -/

def File.classAt (f : File) (index : Nat) : Outcome ClassNode :=
  match f.readClass index with
  | (_, .ok (definition, fields, methods)) => .ok { definition, fields, methods }
  | (name, .error (.failed failure)) => .error (.failed (failure.under (.classDef index name)))
  | (_, .error stop) => .error stop

/-- What reading some classes from a position on comes to. -/
def File.outcomesFrom (f : File) (left index : Nat) : List (Outcome ClassNode) :=
  (range' index left).map f.classAt

/-- What reading the classes of a file comes to, in the order of their definitions. -/
def File.outcomes (f : File) : List (Outcome ClassNode) := f.outcomesFrom f.classCount 0

def failure? : Outcome ClassNode → Option Failure
  | .error (.failed failure) => some failure
  | _ => none

/-- The classes among some outcomes. -/
def nodes (outcomes : List (Outcome ClassNode)) : List ClassNode :=
  outcomes.filterMap Except.toOption

def failures (outcomes : List (Outcome ClassNode)) : List Failure := outcomes.filterMap failure?

@[simp] theorem nodes_append (first second : List (Outcome ClassNode)) :
    nodes (first ++ second) = nodes first ++ nodes second := filterMap_append

@[simp] theorem failures_append (first second : List (Outcome ClassNode)) :
    failures (first ++ second) = failures first ++ failures second := filterMap_append

@[simp] theorem nodes_nil : nodes [] = [] := rfl

@[simp] theorem failures_nil : failures [] = [] := rfl

@[simp] theorem nodes_class (node : ClassNode) (rest : List (Outcome ClassNode)) :
    nodes (.ok node :: rest) = node :: nodes rest := rfl

@[simp] theorem nodes_failure (failure : Failure) (rest : List (Outcome ClassNode)) :
    nodes (.error (.failed failure) :: rest) = nodes rest := rfl

@[simp] theorem failures_class (node : ClassNode) (rest : List (Outcome ClassNode)) :
    failures (.ok node :: rest) = failures rest := rfl

@[simp] theorem failures_failure (failure : Failure) (rest : List (Outcome ClassNode)) :
    failures (.error (.failed failure) :: rest) = failure :: failures rest := rfl

/-- Whether an outcome is a class or a failure, and no step that cannot go on. -/
def ends : Outcome ClassNode → Bool
  | .error .crashed | .error .endless => false
  | .error (.failed _) | .ok _ => true

def File.EndsReading (f : File) : Prop := ∀ outcome ∈ f.outcomes, ends outcome = true

theorem File.outcomesFrom_succ (f : File) (left index : Nat) :
    f.outcomesFrom (left + 1) index = f.classAt index :: f.outcomesFrom left (index + 1) := rfl

/-! ## Collecting class by class -/

section Collecting

variable {η : Type} (decide : Failure → StateM η (Option Failure))

theorem collectFrom_fields (fields : List Field) (rest : List EventResult) (node : ClassNode)
    (classes : List ClassNode) (handled : List Failure) :
    collectFrom decide ((fields.map Event.field).map .ok ++ rest) ⟨node :: classes, true, handled⟩ =
      collectFrom decide rest
        ⟨{ node with fields := fields.reverse ++ node.fields } :: classes, true, handled⟩ := by
  induction fields generalizing node with
  | nil => rfl
  | cons field fields ih =>
    have added := ih { node with fields := field :: node.fields }
    rwa [reverse_cons, append_assoc]

theorem collectFrom_methods (methods : List Method) (rest : List EventResult) (node : ClassNode)
    (classes : List ClassNode) (handled : List Failure) :
    collectFrom decide ((methods.map Event.method).map .ok ++ rest)
        ⟨node :: classes, true, handled⟩ =
      collectFrom decide rest
        ⟨{ node with methods := methods.reverse ++ node.methods } :: classes, true, handled⟩ := by
  induction methods generalizing node with
  | nil => rfl
  | cons method methods ih =>
    have added := ih { node with methods := method :: node.methods }
    rwa [reverse_cons, append_assoc]

theorem collectFrom_classEvents (node : ClassNode) (rest : List EventResult)
    (state : Collection) :
    collectFrom decide
        ((classEvents node.definition node.fields node.methods).map .ok ++ rest) state =
      collectFrom decide rest
        { state with classes := node.inOrder :: state.classes, isOpen := false } := by
  have opened : collectFrom decide
      ((classEvents node.definition node.fields node.methods).map .ok ++ rest) state =
      collectFrom decide ((node.fields.map Event.field).map .ok ++
        ((node.methods.map Event.method).map .ok ++ (.ok (.closes node.definition.name) :: rest)))
        ⟨{ definition := node.definition } :: state.classes, true, state.handled⟩ := by
    simp only [classEvents, map_append, map_cons, map_nil, append_assoc, cons_append, nil_append]
    rfl
  rw [opened, collectFrom_fields, collectFrom_methods, append_nil, append_nil]
  rfl

variable (f : File) {decide}

theorem collectFrom_of_class (read : f.classAt index = .ok node) (state : Collection) :
    collectFrom decide (f.eventsFrom (left + 1) index) state =
      collectFrom decide (f.eventsFrom left (index + 1))
        { state with classes := node.inOrder :: state.classes, isOpen := false } := by
  unfold File.classAt at read
  split at read
  · next definition fields methods here =>
    cases read
    rw [File.eventsFrom, here]
    exact collectFrom_classEvents decide ⟨definition, fields, methods⟩ _ state
  · cases read
  · cases read

/-- A class whose reading fails: the failure is decided about, and when it passes and such classes
are ignored, the classes after it follow. -/
theorem collectFrom_of_failure (read : f.classAt index = .error (.failed failure))
    (state : Collection) :
    collectFrom decide (f.eventsFrom (left + 1) index) state = decide failure >>= fun
      | some refusal =>
        return .ok ({ state with handled := failure :: state.handled }.finish (some refusal))
      | none =>
        collectFrom decide
          (if f.options.ignoreReadException then f.eventsFrom left (index + 1) else [])
          { state with handled := failure :: state.handled, isOpen := false } := by
  unfold File.classAt at read
  split at read
  · cases read
  · next name bare here =>
    cases read
    rw [File.eventsFrom, here]
    rfl
  · next stop notFailed here =>
    cases read
    exact (notFailed failure rfl).elim

theorem collectFrom_of_stop {stop : Stop} (read : f.classAt index = .error stop)
    (other : ∀ failure, stop ≠ .failed failure) (state : Collection) :
    collectFrom decide (f.eventsFrom (left + 1) index) state = return .error stop := by
  unfold File.classAt at read
  split at read
  · cases read
  · cases read
    exact absurd rfl (other _)
  · next here =>
    cases read
    rw [File.eventsFrom, here]
    cases stop with
    | failed failure => exact absurd rfl (other failure)
    | crashed | endless => rfl

def Collection.after (state : Collection) (told : List (Outcome ClassNode)) : Collection :=
  { classes := ((nodes told).map ClassNode.inOrder).reverse ++ state.classes
    handled := (failures told).reverse ++ state.handled }

theorem Collection.after_nil {state : Collection} (closed : state.isOpen = false) :
    state.after [] = state := by
  cases state
  cases closed
  rfl

theorem Collection.after_class (state : Collection) (node : ClassNode)
    (told : List (Outcome ClassNode)) : state.after (.ok node :: told) =
      { state with classes := node.inOrder :: state.classes, isOpen := false : Collection }.after
        told := by
  simp [after]

theorem Collection.after_failure (state : Collection) (failure : Failure)
    (told : List (Outcome ClassNode)) : state.after (.error (.failed failure) :: told) =
      { state with handled := failure :: state.handled, isOpen := false : Collection }.after
        told := by
  simp [after]

theorem Collection.after_append_failure (state : Collection) (failure : Failure)
    (told : List (Outcome ClassNode)) :
    { state.after told with handled := failure :: (state.after told).handled } =
      state.after (told ++ [.error (.failed failure)]) := by
  simp [after]

theorem collectFrom_of_passing (told : List (Outcome ClassNode))
    (split : f.outcomesFrom (told.length + left) index = told ++ later)
    (ended : ∀ outcome ∈ told, ends outcome = true)
    (pass : ∀ failure ∈ failures told, f.options.ignoreReadException = true ∧
      ∀ memory, ((decide failure).run memory).1 = none)
    (state : Collection) (closed : state.isOpen = false) (memory : η) :
    ∃ after, (failures told = [] → after = memory) ∧
      (collectFrom decide (f.eventsFrom (told.length + left) index) state).run memory =
        (collectFrom decide (f.eventsFrom left (index + told.length)) (state.after told)).run
          after := by
  induction told generalizing index state memory with
  | nil =>
    refine ⟨memory, fun _ => rfl, ?_⟩
    rw [Collection.after_nil closed, length_nil, Nat.zero_add, Nat.add_zero]
  | cons outcome told ih =>
    have counted : (outcome :: told).length + left = told.length + left + 1 := Nat.add_right_comm ..
    rw [counted, File.outcomesFrom_succ, cons_append, cons.injEq] at split
    obtain ⟨here, split⟩ := split
    have endedRest := fun other among => ended other (mem_cons_of_mem outcome among)
    have past : index + (outcome :: told).length = index + 1 + told.length :=
      (Nat.add_assoc ..).trans (congrArg _ (Nat.add_comm ..)) |>.symm
    rw [counted, past]
    match outcome with
    | .ok node =>
      rw [collectFrom_of_class f here, Collection.after_class]
      exact ih split endedRest pass _ rfl memory
    | .error (.failed failure) =>
      obtain ⟨ignored, passes⟩ := pass failure mem_cons_self
      obtain ⟨after, -, done⟩ := ih split endedRest
        (fun other among => pass other (mem_cons_of_mem failure among))
        { state with handled := failure :: state.handled, isOpen := false } rfl
        ((decide failure).run memory).2
      refine ⟨after, fun none => absurd none (cons_ne_nil _ _), ?_⟩
      rw [collectFrom_of_failure f here, Collection.after_failure, ← done, StateT.run_bind, ignored]
      have answer := passes memory
      rcases asked : (decide failure).run memory with ⟨told, later⟩
      rw [asked] at answer
      dsimp only at answer
      rw [answer]
      rfl
    | .error .crashed | .error .endless => cases ended _ mem_cons_self

theorem refused_of_collectFrom {left index : Nat} {state : Collection} {memory after : η}
    {collected : Collected}
    (done : (collectFrom decide (f.eventsFrom left index) state).run memory =
      (.ok collected, after)) {refusal : Failure} (stopped : collected.failed = some refusal) :
    ∃ failure ∈ collected.handled, ∃ memory, ((decide failure).run memory).1 = some refusal := by
  induction left generalizing index state memory with
  | zero =>
    cases done
    cases stopped
  | succ left ih =>
    rcases here : f.classAt index with (failure | - | -) | node
    · rw [collectFrom_of_failure f here, StateT.run_bind] at done
      rcases asked : (decide failure).run memory with ⟨_ | told, later⟩
      · rw [asked] at done
        cases ignored : f.options.ignoreReadException with
        | true =>
          rw [ignored] at done
          exact ih done
        | false =>
          rw [ignored] at done
          cases done
          cases stopped
      · rw [asked] at done
        cases done
        cases stopped
        exact ⟨failure, mem_reverse.mpr mem_cons_self, memory, congrArg Prod.fst asked⟩
    · rw [collectFrom_of_stop f here nofun] at done
      cases done
    · rw [collectFrom_of_stop f here nofun] at done
      cases done
    · rw [collectFrom_of_class f here] at done
      exact ih done

theorem collectFrom_ends (ended : ∀ outcome ∈ f.outcomesFrom left index, ends outcome = true)
    (state : Collection) (memory : η) : ∃ collected after,
      (collectFrom decide (f.eventsFrom left index) state).run memory = (.ok collected, after) := by
  induction left generalizing index state memory with
  | zero => exact ⟨_, _, rfl⟩
  | succ left ih =>
    rw [File.outcomesFrom_succ] at ended
    have rest := fun outcome among => ended outcome (.tail _ among)
    rcases here : f.classAt index with (failure | - | -) | node
    · rw [collectFrom_of_failure f here, StateT.run_bind]
      rcases (decide failure).run memory with ⟨_ | told, later⟩
      · cases f.options.ignoreReadException with
        | true => exact ih rest _ later
        | false => exact ⟨_, _, rfl⟩
      · exact ⟨_, _, rfl⟩
    · cases (congrArg ends here).symm.trans (ended _ mem_cons_self)
    · cases (congrArg ends here).symm.trans (ended _ mem_cons_self)
    · rw [collectFrom_of_class f here]
      exact ih rest _ memory

end Collecting

/-! ## The members of a class -/

/-- A member as the class data list it: how much its index is ahead of the one before, its access
flags and, for a method, where its code is. -/
structure Entry where
  step : UInt32
  access : UInt32
  code : UInt32 := 0

structure ClassData where
  statics : List Entry
  instances : List Entry
  direct : List Entry
  virtual : List Entry

def readFieldEntry : Read Entry := do
  return { step := ← Read.uleb128, access := ← Read.uleb128 }

def readMethodEntry : Read Entry := do
  return { step := ← Read.uleb128, access := ← Read.uleb128, code := ← Read.uleb128 }

/-- Reads a class data item: four counts, and then the entries of the four lists. -/
def readClassData : Read ClassData := do
  let staticCount ← Read.uleb128
  let instanceCount ← Read.uleb128
  let directCount ← Read.uleb128
  let virtualCount ← Read.uleb128
  return { statics := ← Read.times readFieldEntry staticCount.toNat
           instances := ← Read.times readFieldEntry instanceCount.toNat
           direct := ← Read.times readMethodEntry directCount.toNat
           virtual := ← Read.times readMethodEntry virtualCount.toNat }

/-- The entries of a list with their indices, which are the sums of the steps so far. -/
def indexed : UInt32 → List Entry → List (UInt32 × Entry)
  | _, [] => []
  | before, entry :: rest => (before + entry.step, entry) :: indexed (before + entry.step) rest

/-- The class data of a class; there need be none, and then there are no members. -/
def File.classData (f : File) (offsets : ClassOffsets) : Outcome ClassData :=
  if offsets.members = 0 then .ok ⟨[], [], [], []⟩
  else f.readAt offsets.members.toNat readClassData

def File.ListsField (f : File) (entry : UInt32 × Entry) (field : Field) : Prop :=
  f.field entry.1 = .ok field.ref ∧ field.access = ⟨entry.2.access⟩

def File.ListsMethod (f : File) (entry : UInt32 × Entry) (method : Method) : Prop :=
  f.method entry.1 = .ok method.ref ∧ method.access = ⟨entry.2.access⟩

section

variable {β : Type} {first read : Read α} {next : α → Read β} {outcome : Outcome α}
  {middle after : Cursor} {a : α} {b : β} {stop : Stop} {note : Text}

theorem Read.bind_of_ok (done : first cursor = (.ok a, middle)) :
    (first >>= next) cursor = next a middle := by
  show (ExceptT.bindCont next (first cursor).1) (first cursor).2 = _
  rw [done]
  rfl

theorem Read.bind_of_error (failed : first cursor = (.error stop, after)) :
    (first >>= next) cursor = (.error stop, after) := by
  show (ExceptT.bindCont next (first cursor).1) (first cursor).2 = _
  rw [failed]
  rfl

theorem Read.bind_eq_ok (done : (first >>= next) cursor = (.ok b, after)) :
    ∃ a middle, first cursor = (.ok a, middle) ∧ next a middle = (.ok b, after) := by
  obtain ⟨a, middle, here, -⟩ := Read.bind_ok (congrArg Prod.fst done)
  exact ⟨a, middle, here, (Read.bind_of_ok here).symm.trans done⟩

theorem Read.lift_eq_ok (done : Read.lift outcome cursor = (.ok a, after)) :
    outcome = .ok a ∧ cursor = after :=
  ⟨congrArg Prod.fst done, congrArg Prod.snd done⟩

theorem Read.under_eq_ok (done : Read.under note read cursor = (.ok a, after)) :
    read cursor = (.ok a, after) := by
  rcases here : read cursor with ⟨outcome, later⟩
  unfold Read.under at done
  rw [here, Prod.mk.injEq, Outcome.under_ok] at done
  rw [done.1, done.2]

theorem Read.recast_eq_ok {cause : Cause} {describe : Text → Text}
    (done : read.recast cause describe cursor = (.ok a, after)) : read cursor = (.ok a, after) := by
  rcases here : read cursor with ⟨outcome, later⟩
  unfold Read.recast at done
  rw [here] at done
  rcases outcome with (failure | - | -) | found
  · cases done
  · cases done
  · cases done
  · exact done

end

variable (f : File)

theorem File.lists_readFields {index : UInt32} {after : Cursor}
    (done : f.readFields directory count index values cursor = (.ok fields, after)) :
    ∃ entries, Read.times readFieldEntry count cursor = (.ok entries, after) ∧
      Forall₂ f.ListsField (indexed index entries) fields := by
  induction count generalizing index values cursor fields with
  | zero =>
    cases done
    exact ⟨[], rfl, .nil⟩
  | succ count ih =>
    obtain ⟨step, _, stepRead, done⟩ := Read.bind_eq_ok done
    obtain ⟨access, _, accessRead, done⟩ := Read.bind_eq_ok done
    dsimp only at done
    obtain ⟨ref, _, refRead, done⟩ := Read.bind_eq_ok done
    obtain ⟨found, rfl⟩ := Read.lift_eq_ok refRead
    obtain ⟨rest, _, restRead, done⟩ := Read.bind_eq_ok done
    cases done
    obtain ⟨entries, entriesRead, lists⟩ := ih restRead
    have entryRead : readFieldEntry cursor = (.ok { step, access }, _) :=
      (Read.bind_of_ok stepRead).trans (Read.bind_of_ok accessRead)
    refine ⟨{ step, access } :: entries, ?_, .cons ⟨found, rfl⟩ lists⟩
    exact (Read.bind_of_ok entryRead).trans (Read.bind_of_ok entriesRead)

theorem File.lists_readMethods {index : UInt32} {after : Cursor}
    (done : f.readMethods directory count index cursor = (.ok methods, after)) :
    ∃ entries, Read.times readMethodEntry count cursor = (.ok entries, after) ∧
      Forall₂ f.ListsMethod (indexed index entries) methods := by
  induction count generalizing index cursor methods with
  | zero =>
    cases done
    exact ⟨[], rfl, .nil⟩
  | succ count ih =>
    obtain ⟨step, _, stepRead, done⟩ := Read.bind_eq_ok done
    obtain ⟨access, _, accessRead, done⟩ := Read.bind_eq_ok done
    obtain ⟨place, last, placeRead, done⟩ := Read.bind_eq_ok done
    dsimp only at done
    obtain ⟨ref, _, refRead, done⟩ := Read.bind_eq_ok done
    obtain ⟨found, rfl⟩ := Read.lift_eq_ok refRead
    -- Reading a body leaves the cursor where it is, whether there is one or not.
    obtain ⟨code, done⟩ : ∃ code, (f.readMethods directory count (index + step) >>= fun rest =>
        pure ({ ref, access := ⟨access⟩, annotations := lastEntry directory.methods (index + step)
                params := lastEntry directory.params (index + step), code } :: rest)) last =
        (.ok methods, after) := by
      split at done
      · obtain ⟨body, _, bodyRead, done⟩ := Read.bind_eq_ok done
        obtain ⟨-, rfl⟩ := Read.lift_eq_ok (Read.under_eq_ok bodyRead)
        exact ⟨some body, done⟩
      · exact ⟨none, done⟩
    obtain ⟨rest, _, restRead, done⟩ := Read.bind_eq_ok done
    cases done
    obtain ⟨entries, entriesRead, lists⟩ := ih restRead
    have entryRead : readMethodEntry cursor = (.ok { step, access, code := place }, _) :=
      (Read.bind_of_ok stepRead).trans
        ((Read.bind_of_ok accessRead).trans (Read.bind_of_ok placeRead))
    refine ⟨{ step, access, code := place } :: entries, ?_, .cons ⟨found, rfl⟩ lists⟩
    exact (Read.bind_of_ok entryRead).trans (Read.bind_of_ok entriesRead)

theorem File.lists_readMembers {after : Cursor}
    (done : f.readMembers directory values cursor = (.ok (fields, methods), after)) :
    ∃ data, readClassData cursor = (.ok data, after) ∧
      Forall₂ f.ListsField (indexed 0 data.statics ++ indexed 0 data.instances) fields ∧
      Forall₂ f.ListsMethod (indexed 0 data.direct ++ indexed 0 data.virtual) methods := by
  unfold File.readMembers at done
  obtain ⟨staticCount, _, staticRead, done⟩ := Read.bind_eq_ok done
  obtain ⟨instanceCount, _, instanceRead, done⟩ := Read.bind_eq_ok done
  obtain ⟨directCount, _, directRead, done⟩ := Read.bind_eq_ok done
  obtain ⟨virtualCount, _, virtualRead, done⟩ := Read.bind_eq_ok done
  obtain ⟨_, _, read, done⟩ := Read.bind_eq_ok done
  obtain ⟨statics, staticsRead, listsStatics⟩ := f.lists_readFields read
  obtain ⟨_, _, read, done⟩ := Read.bind_eq_ok done
  obtain ⟨instances, instancesRead, listsInstances⟩ := f.lists_readFields read
  obtain ⟨_, _, read, done⟩ := Read.bind_eq_ok done
  obtain ⟨direct, directEntriesRead, listsDirect⟩ := f.lists_readMethods read
  obtain ⟨_, _, read, done⟩ := Read.bind_eq_ok done
  obtain ⟨virtual, virtualEntriesRead, listsVirtual⟩ := f.lists_readMethods read
  cases done
  refine ⟨⟨statics, instances, direct, virtual⟩, ?_, rel_append listsStatics listsInstances,
    rel_append listsDirect listsVirtual⟩
  unfold readClassData
  rw [Read.bind_of_ok (Read.under_eq_ok staticRead),
    Read.bind_of_ok (Read.under_eq_ok instanceRead),
    Read.bind_of_ok (Read.under_eq_ok directRead), Read.bind_of_ok (Read.under_eq_ok virtualRead),
    Read.bind_of_ok staticsRead, Read.bind_of_ok instancesRead, Read.bind_of_ok directEntriesRead,
    Read.bind_of_ok virtualEntriesRead]
  rfl

theorem File.members_of_readClass {definition : ClassDef}
    (done : (f.readClass index).2 = .ok (definition, fields, methods)) :
    ∃ bare offsets directory values, (f.classDef index).2 = .ok (bare, offsets) ∧
      definition = { bare with annotations := directory.onClass } ∧
      (if offsets.members = 0 then .ok ([], [])
        else f.readAt offsets.members.toNat (f.readMembers directory values)) =
        (.ok (fields, methods) : Outcome _) := by
  obtain ⟨⟨bare, offsets⟩, told, done⟩ := Outcome.bind_ok.mp done
  obtain ⟨directory, -, done⟩ := Outcome.bind_ok.mp done
  have atValues : ∃ values, (if offsets.members = 0 then
      .ok ({ bare with annotations := directory.onClass }, [], [])
      else f.readAt offsets.members.toNat (f.readMembers directory values) >>= fun found =>
        .ok ({ bare with annotations := directory.onClass }, found)) =
      (.ok (definition, fields, methods) : Outcome _) := by
    dsimp only at done
    split at done
    · exact ⟨[], done⟩
    · obtain ⟨values, -, done⟩ := Outcome.bind_ok.mp done
      exact ⟨values, done⟩
  obtain ⟨values, done⟩ := atValues
  refine ⟨bare, offsets, directory, values, told, ?_⟩
  split at done
  · next absent =>
    cases done
    exact ⟨rfl, if_pos absent⟩
  · next present =>
    obtain ⟨found, members, done⟩ := Outcome.bind_ok.mp done
    cases done
    exact ⟨rfl, (if_neg present).trans members⟩

/-- A class is the one that its definition tells, and its members are those that its class data
list: first the static fields and then the others, first the direct methods and then the others. -/
def File.ListsClass (f : File) (index : Nat) (node : ClassNode) : Prop :=
  ∃ bare offsets data, (f.classDef index).2 = .ok (bare, offsets) ∧
    node.definition = { bare with annotations := node.definition.annotations } ∧
    f.classData offsets = .ok data ∧
    Forall₂ f.ListsField (indexed 0 data.statics ++ indexed 0 data.instances) node.fields ∧
    Forall₂ f.ListsMethod (indexed 0 data.direct ++ indexed 0 data.virtual) node.methods

theorem File.lists_classAt (read : f.classAt index = .ok node) : f.ListsClass index node := by
  unfold File.classAt at read
  split at read
  · next definition fields methods here =>
    cases read
    obtain ⟨bare, offsets, directory, values, told, rfl, members⟩ :=
      f.members_of_readClass (congrArg Prod.snd here)
    refine ⟨bare, offsets, ?_⟩
    split at members
    · next absent =>
      cases members
      exact ⟨⟨[], [], [], []⟩, told, rfl, if_pos absent, .nil, .nil⟩
    · next present =>
      obtain ⟨data, dataRead, lists⟩ := f.lists_readMembers (Prod.ext members rfl)
      exact ⟨data, told, rfl, (if_neg present).trans (congrArg Prod.fst dataRead), lists⟩
  · cases read
  · cases read

/-! ## Whole classes -/

section Whole

variable {f : File} {η : Type} {decide : Failure → StateM η (Option Failure)} {memory after : η}

theorem ClassNode.inOrder_inOrder (node : ClassNode) : node.inOrder.inOrder = node := by
  simp [inOrder]

theorem collected_after (told : List (Outcome ClassNode)) (failed : Option Failure) :
    ({ (({} : Collection).after told).finish failed with
      classes := ((({} : Collection).after told).finish failed).classes.map ClassNode.inOrder }
        : Collected) = ⟨nodes told, failures told, failed⟩ := by
  simp [Collection.after, Collection.finish, Function.comp_def, ClassNode.inOrder_inOrder]

theorem collectWith_of_collectFrom {events : List EventResult}
    (done : (collectFrom decide events {}).run memory = (.ok collected, after)) :
    (collectWith decide events).run memory =
      (.ok { collected with classes := collected.classes.map ClassNode.inOrder }, after) := by
  rw [collectWith, StateT.run_bind, done]
  rfl

@[simp] theorem failures_map_ok (read : List ClassNode) : failures (read.map .ok) = [] := by
  induction read with
  | nil => rfl
  | cons node read ih => exact ih

@[simp] theorem nodes_map_ok (read : List ClassNode) : nodes (read.map .ok) = read := by
  induction read with
  | nil => rfl
  | cons node read ih => exact congrArg (node :: ·) ih

theorem File.length_outcomesFrom (left index : Nat) :
    (f.outcomesFrom left index).length = left := by
  simp [outcomesFrom]

/-- When failures pass and are ignored, the classes that can be read are collected and the failures
of the others are handled. -/
theorem collectWith_of_ignoring (readable : f.EndsReading)
    (ignored : f.options.ignoreReadException = true)
    (pass : ∀ failure memory, ((decide failure).run memory).1 = none) (memory : η) :
    ∃ after, (collectWith decide f.events).run memory =
      (.ok { classes := nodes f.outcomes, handled := failures f.outcomes }, after) := by
  have counted : f.outcomes.length = f.classCount := f.length_outcomesFrom ..
  have whole : f.outcomesFrom (f.outcomes.length + 0) 0 = f.outcomes ++ [] := by
    rw [counted, append_nil]
    rfl
  obtain ⟨after, -, done⟩ := collectFrom_of_passing f f.outcomes whole readable
    (fun failure _ => ⟨ignored, pass failure⟩) {} rfl memory
  rw [counted] at done
  exact ⟨after, (collectWith_of_collectFrom done).trans (by rw [collected_after])⟩

theorem File.outcomesFrom_of_append {told : List (Outcome ClassNode)}
    (split : f.outcomesFrom (told.length + left) index = told ++ later) :
    f.outcomesFrom left (index + told.length) = later := by
  have parts : f.outcomesFrom (told.length + left) index =
      f.outcomesFrom told.length index ++ f.outcomesFrom left (index + told.length) := by
    simp only [outcomesFrom, ← map_append, range'_append_1]
  rw [parts] at split
  exact (append_inj split (f.length_outcomesFrom ..)).2

theorem collectWith_of_classes (told : f.outcomes = read.map .ok) :
    (collectWith decide f.events).run memory = (.ok { classes := read }, memory) := by
  have counted : (read.map (Except.ok : ClassNode → Outcome ClassNode)).length = f.classCount :=
    (congrArg length told.symm).trans (f.length_outcomesFrom ..)
  have whole : f.outcomesFrom ((read.map (Except.ok : ClassNode → Outcome ClassNode)).length + 0)
      0 = read.map .ok ++ [] := by
    rwa [counted, append_nil]
  obtain ⟨after, same, done⟩ :=
    collectFrom_of_passing f (read.map .ok) whole (by simp [ends]) (by simp) {} rfl memory
  rw [counted, same (failures_map_ok read)] at done
  refine (collectWith_of_collectFrom done).trans ?_
  rw [collected_after, nodes_map_ok, failures_map_ok]

/-- When failures are not ignored, the classes before the first failure are collected, and what is
decided about it is what the collection ends with. -/
theorem collectWith_of_failure (kept : f.options.ignoreReadException = false)
    {rest : List (Outcome ClassNode)}
    (told : f.outcomes = read.map .ok ++ .error (.failed failure) :: rest) :
    (collectWith decide f.events).run memory =
      (.ok ⟨read, [failure], ((decide failure).run memory).1⟩,
        ((decide failure).run memory).2) := by
  have counted : (read.map (Except.ok : ClassNode → Outcome ClassNode)).length +
      (rest.length + 1) = f.classCount := by
    have total := congrArg length told
    rw [length_append, length_cons] at total
    exact total.symm.trans (f.length_outcomesFrom f.classCount 0)
  have split : f.outcomesFrom ((read.map (Except.ok : ClassNode → Outcome ClassNode)).length +
      (rest.length + 1)) 0 = read.map .ok ++ .error (.failed failure) :: rest := by
    rwa [counted]
  obtain ⟨after, same, done⟩ :=
    collectFrom_of_passing f (read.map .ok) split (by simp [ends]) (by simp) {} rfl memory
  have here := File.outcomesFrom_of_append split
  rw [File.outcomesFrom_succ, cons.injEq] at here
  rw [counted, same (failures_map_ok read), collectFrom_of_failure f here.1, StateT.run_bind,
    kept] at done
  have ended : (collectFrom decide f.events {}).run memory =
      (.ok ((({} : Collection).after (read.map .ok ++ [.error (.failed failure)])).finish
        ((decide failure).run memory).1), ((decide failure).run memory).2) := by
    refine done.trans ?_
    rw [← Collection.after_append_failure]
    rcases (decide failure).run memory with ⟨_ | refusal, later⟩ <;> rfl
  refine (collectWith_of_collectFrom ended).trans ?_
  rw [collected_after]
  simp

theorem refused_of_collectWith
    (done : (collectWith decide f.events).run memory = (.ok collected, after)) {refusal : Failure}
    (stopped : collected.failed = some refusal) :
    ∃ failure ∈ collected.handled, ∃ memory, ((decide failure).run memory).1 = some refusal := by
  rcases here : (collectFrom decide f.events {}).run memory with ⟨stop | gathered, later⟩
  · rw [collectWith, StateT.run_bind, here] at done
    cases done
  · rw [collectWith_of_collectFrom here] at done
    cases done
    exact refused_of_collectFrom f here stopped

end Whole

structure WholeClasses (f : File) {η : Type} (decide : Failure → StateM η (Option Failure))
    (memory : η) (collected : Collected) : Prop where
  /-- Collecting stops with what was decided about a failure, and with nothing else. -/
  refused : ∀ refusal, collected.failed = some refusal → ∃ failure ∈ collected.handled,
    ∃ memory, ((decide failure).run memory).1 = some refusal
  /-- Failures that are ignored and pass: the classes that can be read, and the other failures. -/
  passed : f.options.ignoreReadException = true →
    (∀ failure memory, ((decide failure).run memory).1 = none) →
    collected = { classes := nodes f.outcomes, handled := failures f.outcomes }
  /-- Nothing fails. -/
  unbroken : f.options.ignoreReadException = false → ∀ read, f.outcomes = read.map .ok →
    collected = { classes := read }
  /-- Failures are not ignored: the classes before the first one, which is handled once. -/
  broken : f.options.ignoreReadException = false → ∀ read failure rest,
    f.outcomes = read.map .ok ++ .error (.failed failure) :: rest →
    collected = ⟨read, [failure], ((decide failure).run memory).1⟩

/-- When reading each class comes to an end, so does collecting them, and what is collected are
whole classes, each with all its members in the order in which they are listed. -/
theorem File.collects_whole_classes {f : File} (readable : f.EndsReading) {η : Type}
    (decide : Failure → StateM η (Option Failure)) (memory : η) :
    (∃ collected after, (collectWith decide f.events).run memory = (.ok collected, after) ∧
      WholeClasses f decide memory collected) ∧
    ∀ index node, f.classAt index = .ok node → f.ListsClass index node := by
  obtain ⟨gathered, after, ended⟩ : ∃ gathered after,
      (collectFrom decide f.events {}).run memory = (.ok gathered, after) :=
    collectFrom_ends f readable {} memory
  have done : (collectWith decide f.events).run memory = _ := collectWith_of_collectFrom ended
  refine ⟨⟨_, after, done, fun _ => refused_of_collectWith done, fun ignored pass => ?_,
    fun _ read told => ?_, fun kept read failure rest told => ?_⟩, fun _ _ => f.lists_classAt⟩
  · obtain ⟨later, passed⟩ := collectWith_of_ignoring readable ignored pass memory
    exact Except.ok.inj (congrArg Prod.fst (done.symm.trans passed))
  · exact Except.ok.inj (congrArg Prod.fst (done.symm.trans (collectWith_of_classes told)))
  · exact Except.ok.inj (congrArg Prod.fst (done.symm.trans (collectWith_of_failure kept told)))

/-- A file with two classes of one method each. The first method says that its code is longer than
what is left of the file, the second is abstract. -/
def overlongCode : ByteArray := ⟨#[
    100, 101, 120, 10, 48, 51, 53, 0, 131, 37, 18, 117, 91, 143, 251, 102, 23, 144, 231, 55, 99,
    100, 143, 15, 75, 121, 57, 243, 156, 174, 221, 222, 28, 1, 0, 0, 112, 0, 0, 0, 120, 86, 52,
    18, 0, 0, 0, 0, 0, 0, 0, 0, 0, 0, 0, 0, 4, 0, 0, 0, 112, 0, 0, 0, 3, 0, 0, 0, 128, 0, 0, 0, 1,
    0, 0, 0, 140, 0, 0, 0, 0, 0, 0, 0, 0, 0, 0, 0, 2, 0, 0, 0, 152, 0, 0, 0, 2, 0, 0, 0, 168, 0,
    0, 0, 52, 0, 0, 0, 232, 0, 0, 0, 10, 1, 0, 0, 15, 1, 0, 0, 20, 1, 0, 0, 23, 1, 0, 0, 0, 0, 0,
    0, 1, 0, 0, 0, 2, 0, 0, 0, 2, 0, 0, 0, 2, 0, 0, 0, 0, 0, 0, 0, 0, 0, 0, 0, 3, 0, 0, 0, 1, 0,
    0, 0, 3, 0, 0, 0, 0, 0, 0, 0, 1, 0, 0, 0, 255, 255, 255, 255, 0, 0, 0, 0, 255, 255, 255, 255,
    0, 0, 0, 0, 250, 0, 0, 0, 0, 0, 0, 0, 1, 0, 0, 0, 1, 0, 0, 0, 255, 255, 255, 255, 0, 0, 0, 0,
    255, 255, 255, 255, 0, 0, 0, 0, 2, 1, 0, 0, 0, 0, 0, 0, 1, 0, 0, 0, 0, 0, 0, 0, 0, 0, 0, 0,
    100, 0, 0, 0, 14, 0, 0, 0, 1, 0, 0, 9, 232, 1, 0, 0, 1, 0, 1, 129, 8, 0, 3, 76, 65, 59, 0, 3,
    76, 66, 59, 0, 1, 86, 0, 1, 109, 0, 0, 0]⟩

def overlongCodeHeader : Header where
  version := "035"
  checksum := 0x75122583
  fileSize := 284
  headerSize := 112
  strings := ⟨4, 112⟩
  types := ⟨3, 128⟩
  protos := ⟨1, 140⟩
  fields := ⟨0, 0⟩
  methods := ⟨2, 152⟩
  classes := ⟨2, 168⟩
  data := ⟨52, 232⟩

def overlongCodeBare : File where
  header := overlongCodeHeader
  options := { ignoreReadException := true }
  diagnostics := sumDiagnostics overlongCode overlongCodeHeader
  data := overlongCode

/-- Whether the first of two classes fails and the second can be read. -/
def isHalfRead : List (Outcome ClassNode) → Bool
  | [.error (.failed _), .ok _] => true
  | _ => false

/-- Lets every failure pass. -/
def passing (_ : Failure) : StateM Unit (Option Failure) := pure none

/-- The first class of the file is passed over and the second is collected. -/
theorem File.collects_whole_classes_overlongCode : ∃ f : File,
    File.open overlongCode { ignoreReadException := true } = .ok f ∧ f.EndsReading ∧
    (nodes f.outcomes).length = 1 ∧ (failures f.outcomes).length = 1 ∧
    (∃ collected after, (collectWith passing f.events).run () = (.ok collected, after) ∧
      WholeClasses f passing () collected) ∧
    ∀ index node, f.classAt index = .ok node → f.ListsClass index node := by
  have version : ((front overlongCode).drop 4).take 3 = "035" := by decide +kernel
  have opened : File.open overlongCode { ignoreReadException := true } =
      overlongCodeBare.withTables :=
    File.open_of_fills (by decide +kernel) (by decide +kernel) (by decide +kernel) version
      (by decide +kernel) (by decide +kernel) (by decide +kernel) _
  have half : (overlongCodeBare.withTables.toOption.map fun f => isHalfRead f.outcomes) =
      some true := by
    decide +kernel
  rcases told : overlongCodeBare.withTables with stop | f
  · rw [told] at half
    cases half
  · rw [told] at half
    have split : isHalfRead f.outcomes = true := Option.some.inj half
    unfold isHalfRead at split
    split at split
    · next failure node outcomes =>
      have readable : f.EndsReading := by simp [File.EndsReading, outcomes, ends]
      exact ⟨f, opened.trans told, readable, by simp [outcomes], by simp [outcomes],
        File.collects_whole_classes readable passing ()⟩
    · cases split

end DexLift.Dex
