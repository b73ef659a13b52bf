import DexLift.Proofs.Jvm.Appending

/-!
# What the assembler has recorded of the calls

A label that is marked stands before the instruction that is appended next, and so do
lines and frames. After any list of calls the assembler has one item for each call
that appends one, knows the place of each label, and has the catchers, the lines and
the places of frames in the order of the calls. One call keeps this true of the list
with the call, and so does every list of calls.
-/

namespace DexLift.Jvm

open List

namespace Call

/-- Makes calls one after another. -/
def runAll : List Call → Asm Unit
  | [] => return ()
  | call :: calls => do
    call.run
    runAll calls

/-- How many instructions some calls append. -/
def appended (calls : List Call) : Nat := calls.countP appends

def MarkedBefore (calls : List Call) (l : CodeLabel) (place : Nat) : Prop :=
  ∃ before after, calls = before ++ mark l :: after ∧ mark l ∉ after ∧ appended before = place

def FramedBefore (calls : List Call) (place : Nat) : Prop :=
  ∃ before f after, calls = before ++ frame f :: after ∧ appended before = place

def catcher? : Call → Option Catcher
  | catch_ c => some c
  | _ => none

/-- The entries of the lines that some calls note, each with the number of the instruction that
comes next. A line that cannot be written and the same line again are passed over. -/
def lineNotes (calls : List Call) : List (Nat × Nat) :=
  (calls.foldl step (0, [])).2
where
  /-- Notes one more call. -/
  step (state : Nat × List (Nat × Nat)) : Call → Nat × List (Nat × Nat)
    | line n =>
      if n < 0 ∨ n > 65535 ∨ (state.2.getLast?.map fun entry => (entry.2 : Int)) = some n then state
      else (state.1, state.2 ++ [(state.1, n.toNat)])
    | call => (if call.appends then state.1 + 1 else state.1, state.2)

section Snoc

variable {calls : List Call} {call : Call}

theorem appended_snoc (calls : List Call) (call : Call) :
    appended (calls ++ [call]) = appended calls + if call.appends then 1 else 0 := by
  rw [appended, countP_append, countP_singleton]
  rfl

theorem markedBefore_mark (calls : List Call) (l : CodeLabel) :
    MarkedBefore (calls ++ [mark l]) l (appended calls) :=
  ⟨calls, [], rfl, not_mem_nil, rfl⟩

theorem MarkedBefore.snoc {l : CodeLabel} {place : Nat} (marked : MarkedBefore calls l place)
    (other : call ≠ mark l) : MarkedBefore (calls ++ [call]) l place := by
  obtain ⟨before, after, rfl, last, here⟩ := marked
  refine ⟨before, after ++ [call], by simp, ?_, here⟩
  intro member
  rcases mem_append.mp member with earlier | now
  · exact last earlier
  · exact other (mem_singleton.mp now).symm

theorem framedBefore_snoc {place : Nat} :
    FramedBefore (calls ++ [call]) place ↔
      FramedBefore calls place ∨ (∃ f, call = frame f) ∧ place = appended calls := by
  constructor
  · rintro ⟨before, f, after, split, here⟩
    rcases eq_nil_or_concat after with rfl | ⟨after, last, rfl⟩
    · obtain ⟨rfl, same⟩ := append_inj' split rfl
      exact .inr ⟨⟨f, singleton_inj.mp same⟩, here.symm⟩
    · rw [concat_eq_append, ← cons_append, ← append_assoc] at split
      obtain ⟨rfl, -⟩ := append_inj' split rfl
      exact .inl ⟨before, f, after, rfl, here⟩
  · rintro (⟨before, f, after, rfl, here⟩ | ⟨⟨f, rfl⟩, rfl⟩)
    · exact ⟨before, f, after ++ [call], by simp, here⟩
    · exact ⟨calls, f, [], rfl, rfl⟩

theorem foldl_step_fst (calls : List Call) :
    (calls.foldl lineNotes.step (0, [])).1 = appended calls := by
  induction calls using List.reverseRecOn with
  | nil => rfl
  | append_singleton calls call ih =>
    rw [foldl_append, foldl_cons, foldl_nil, appended_snoc, ← ih]
    cases call with
    | line n =>
      simp only [lineNotes.step]
      split <;> rfl
    | _ => rfl

theorem lineNotes_line (calls : List Call) (n : Int) :
    lineNotes (calls ++ [line n]) =
      if n < 0 ∨ n > 65535 ∨ ((lineNotes calls).getLast?.map fun entry => (entry.2 : Int)) = some n
      then lineNotes calls else lineNotes calls ++ [(appended calls, n.toNat)] := by
  rw [lineNotes, foldl_append, foldl_cons, foldl_nil, ← foldl_step_fst]
  exact apply_ite Prod.snd _ _ _

theorem lineNotes_other (calls : List Call) (other : ∀ n, call ≠ line n) :
    lineNotes (calls ++ [call]) = lineNotes calls := by
  rw [lineNotes, foldl_append, foldl_cons, foldl_nil]
  cases call with
  | line n => exact absurd rfl (other n)
  | _ => rfl

end Snoc

end Call

open Call

structure Ascending {α : Type} (entries : List (Nat × α)) (last : Nat) : Prop where
  sorted : entries.Pairwise fun a b => a.1 ≤ b.1
  bounded : ∀ entry ∈ entries, entry.1 ≤ last

structure Recorded (calls : List Call) (a : Assembler) : Prop where
  sound : a.pool.Sound
  size : a.items.size = appended calls
  items : ∀ p, a.pool.Grows p → p.failure = none →
    Forall₂ (Item.IsFor p) (calls.filter Call.appends) a.items.toList
  labels : ∀ l place, a.labels[l]? = some (some place) → MarkedBefore calls l place
  catchers : a.catchers.toList = calls.filterMap catcher?
  lines : a.lines.toList = lineNotes calls
  linesAscend : Ascending a.lines.toList (appended calls)
  frames : ∀ place, (∃ f, (place, f) ∈ a.frames.toList) ↔ FramedBefore calls place
  framesAscend : Ascending a.frames.toList (appended calls)
  asked : ∀ entry ∈ a.frames.toList, Call.frame entry.2 ∈ calls

section Ascending

variable {α : Type} {entries : List (Nat × α)} {last next : Nat}

theorem Ascending.mono (ascending : Ascending entries last) (later : last ≤ next) :
    Ascending entries next :=
  ⟨ascending.sorted, fun entry member => le_trans (ascending.bounded entry member) later⟩

theorem Ascending.snoc (ascending : Ascending entries last) (value : α) :
    Ascending (entries ++ [(last, value)]) last := by
  refine ⟨?_, ?_⟩
  · rw [pairwise_append]
    refine ⟨ascending.sorted, pairwise_singleton _ _, ?_⟩
    intro entry member other here
    rw [mem_singleton.mp here]
    exact ascending.bounded entry member
  · intro entry member
    rcases mem_append.mp member with earlier | now
    · exact ascending.bounded entry earlier
    · exact Nat.le_of_eq (congrArg Prod.fst (mem_singleton.mp now))

end Ascending

theorem recorded_nil {pool : Pool} (sound : pool.Sound) : Recorded [] { pool } := by
  refine ⟨sound, rfl, fun _ _ _ => .nil, ?_, rfl, rfl, ⟨.nil, nofun⟩, ?_, ⟨.nil, nofun⟩, nofun⟩
  · intro l place found
    simp at found
  · intro place
    refine ⟨nofun, ?_⟩
    rintro ⟨before, f, after, split, -⟩
    simp at split

section Step

variable {calls : List Call} {call : Call} {a b : Assembler}

section

variable (recorded : Recorded calls a)

include recorded

theorem Recorded.labels_snoc (other : ∀ l, call ≠ mark l) {l : CodeLabel} {place : Nat}
    (found : a.labels[l]? = some (some place)) : MarkedBefore (calls ++ [call]) l place :=
  (recorded.labels l place found).snoc (other l)

theorem Recorded.lines_snoc (other : ∀ n, call ≠ line n) :
    a.lines.toList = lineNotes (calls ++ [call]) :=
  recorded.lines.trans (lineNotes_other calls other).symm

theorem Recorded.frames_snoc (other : ∀ f, call ≠ frame f) (place : Nat) :
    (∃ f, (place, f) ∈ a.frames.toList) ↔ FramedBefore (calls ++ [call]) place := by
  rw [recorded.frames, framedBefore_snoc]
  refine ⟨.inl, fun either => either.resolve_right ?_⟩
  rintro ⟨⟨f, same⟩, -⟩
  exact other f same

theorem Recorded.append (adding : call.appends = true) (proper : call.isProper = true)
    (ran : call.run.run.run a = (.ok (), b)) : Recorded (calls ++ [call]) b := by
  obtain ⟨item, grown, fits⟩ := appends_run adding proper a b ran recorded.sound
  have more := appended_snoc calls call
  rw [adding, if_pos rfl] at more
  refine ⟨grown.pool.sound recorded.sound, ?_, ?_, ?_, ?_, ?_, ?_, ?_, ?_, ?_⟩
  · rw [grown.items, Array.size_push, recorded.size, more]
  · intro p later fine
    rw [filter_append, filter_singleton, adding, grown.items, Array.toList_push]
    exact rel_append (recorded.items p (grown.pool.trans later) fine)
      (.cons (fits p later fine) .nil)
  · intro l place found
    rw [grown.labels] at found
    refine recorded.labels_snoc ?_ found
    rintro l rfl
    cases adding
  · have none : [call].filterMap catcher? = [] := by
      cases call <;> first | rfl | cases adding
    rw [grown.catchers, recorded.catchers, filterMap_append, none, append_nil]
  · rw [grown.lines]
    refine recorded.lines_snoc ?_
    rintro n rfl
    cases adding
  · rw [grown.lines, more]
    exact recorded.linesAscend.mono (Nat.le_succ _)
  · rw [grown.frames]
    refine recorded.frames_snoc ?_
    rintro f rfl
    cases adding
  · rw [grown.frames, more]
    exact recorded.framesAscend.mono (Nat.le_succ _)
  · rw [grown.frames]
    exact fun entry member => mem_append_left _ (recorded.asked entry member)

theorem Recorded.items_snoc (silent : call.appends = false) :
    a.items.size = appended (calls ++ [call]) ∧ ∀ p, a.pool.Grows p → p.failure = none →
      Forall₂ (Item.IsFor p) ((calls ++ [call]).filter Call.appends) a.items.toList := by
  have same := appended_snoc calls call
  rw [silent, if_neg nofun, Nat.add_zero] at same
  refine ⟨recorded.size.trans same.symm, fun p later fine => ?_⟩
  have none : [call].filter Call.appends = [] := by
    rw [filter_singleton, silent]
    rfl
  rw [filter_append, none, append_nil]
  exact recorded.items p later fine

end

/-- The frames that stay when a frame is recorded for a place: one that was recorded for it last is
replaced. -/
def earlierFrames (frames : Array (Nat × Frame)) (here : Nat) : Array (Nat × Frame) :=
  match frames.back? with
  | some (place, _) => if place = here then frames.pop else frames
  | none => frames

theorem earlierFrames_spec (frames : Array (Nat × Frame)) (here : Nat) :
    (earlierFrames frames here).toList <+: frames.toList ∧
      ∀ entry ∈ frames.toList, entry.1 ≠ here → entry ∈ (earlierFrames frames here).toList := by
  cases last : frames.back? with
  | none =>
    rw [earlierFrames, last]
    exact ⟨prefix_rfl, fun _ member _ => member⟩
  | some entry =>
    obtain ⟨place, f⟩ := entry
    by_cases same : place = here
    · have split : frames.toList = frames.toList.dropLast ++ [(place, f)] := by
        rw [← Array.getLast?_toList] at last
        obtain ⟨first, whole⟩ := getLast?_eq_some_iff.mp last
        rw [whole, dropLast_concat]
      rw [earlierFrames, last]
      simp only [same, if_true, Array.toList_pop]
      refine ⟨frames.toList.dropLast_prefix, fun entry member different => ?_⟩
      rw [split] at member
      rcases mem_append.mp member with earlier | now
      · exact earlier
      · rw [mem_singleton.mp now] at different
        exact absurd same different
    · rw [earlierFrames, last]
      simp only [same, if_false]
      exact ⟨prefix_rfl, fun _ member _ => member⟩

theorem Recorded.silent (recorded : Recorded calls a) (silent : call.appends = false)
    (ran : call.run.run.run a = (.ok (), b)) : Recorded (calls ++ [call]) b := by
  have same := appended_snoc calls call
  rw [silent, if_neg nofun, Nat.add_zero] at same
  obtain ⟨size, items⟩ := recorded.items_snoc silent
  have lines := recorded.linesAscend
  have frames := recorded.framesAscend
  have asked : ∀ entry ∈ a.frames.toList, Call.frame entry.2 ∈ calls ++ [call] :=
    fun entry member => mem_append_left _ (recorded.asked entry member)
  have kept : call.catcher? = none → a.catchers.toList = (calls ++ [call]).filterMap catcher? := by
    intro none
    rw [recorded.catchers, filterMap_append, filterMap_cons_none none,
      filterMap_nil, append_nil]
  rw [← same] at lines frames
  cases call with
  | newLabel =>
    cases ran
    refine ⟨recorded.sound, size, items, ?_, kept rfl, recorded.lines_snoc (by nofun), lines,
      recorded.frames_snoc (by nofun), frames, asked⟩
    intro l place found
    rw [Array.getElem?_push] at found
    split at found
    · cases found
    · exact recorded.labels_snoc (by nofun) found
  | mark l =>
    cases ran
    refine ⟨recorded.sound, size, items, ?_, kept rfl, recorded.lines_snoc (by nofun), lines,
      recorded.frames_snoc (by nofun), frames, asked⟩
    intro other place found
    rw [Array.getElem?_setIfInBounds] at found
    split at found
    next here =>
      split at found
      · cases found
        rw [← here, recorded.size]
        exact markedBefore_mark calls l
      · cases found
    next elsewhere =>
      refine (recorded.labels other place found).snoc ?_
      rintro ⟨⟩
      exact elsewhere rfl
  | setInitialFrame locals =>
    cases ran
    exact ⟨recorded.sound, size, items, fun _ _ => recorded.labels_snoc (by nofun), kept rfl,
      recorded.lines_snoc (by nofun), lines, recorded.frames_snoc (by nofun), frames, asked⟩
  | frame f =>
    cases ran
    obtain ⟨fewer, others⟩ := earlierFrames_spec a.frames a.items.size
    refine ⟨recorded.sound, size, items, fun _ _ => recorded.labels_snoc (by nofun), kept rfl,
      recorded.lines_snoc (by nofun), lines, ?_, ?_, ?_⟩
    · intro place
      change (∃ f', (place, f') ∈ ((earlierFrames a.frames a.items.size).push _).toList) ↔ _
      rw [framedBefore_snoc, ← recorded.frames, Array.toList_push, ← recorded.size]
      constructor
      · rintro ⟨g, member⟩
        rcases mem_append.mp member with earlier | now
        · exact .inl ⟨g, fewer.subset earlier⟩
        · exact .inr ⟨⟨f, rfl⟩, congrArg Prod.fst (mem_singleton.mp now)⟩
      · by_cases here : place = a.items.size
        · exact fun _ => ⟨f, mem_append_right _ (by rw [here]; exact mem_cons_self)⟩
        · rintro (⟨g, member⟩ | ⟨-, now⟩)
          · exact ⟨g, mem_append_left _ (others _ member here)⟩
          · exact absurd now here
    · change Ascending ((earlierFrames a.frames a.items.size).push _).toList _
      rw [Array.toList_push, ← size]
      rw [← size] at frames
      refine Ascending.snoc ⟨?_, ?_⟩ f
      · exact frames.sorted.sublist fewer.sublist
      · exact fun entry member => frames.bounded entry (fewer.subset member)
    · change ∀ entry ∈ ((earlierFrames a.frames a.items.size).push _).toList, _
      rw [Array.toList_push]
      intro entry member
      rcases mem_append.mp member with earlier | now
      · exact asked entry (fewer.subset earlier)
      · rw [mem_singleton.mp now]
        exact mem_append_right _ mem_cons_self
  | line n =>
    cases ran
    have last : (a.lines.back?.map fun entry => (entry.2 : Int)) =
        (lineNotes calls).getLast?.map fun entry => (entry.2 : Int) := by
      rw [← recorded.lines, Array.getLast?_toList]
    by_cases skipped : n < 0 ∨ n > 65535 ∨
        (a.lines.back?.map fun entry => (entry.2 : Int)) = some n
    · dsimp only
      rw [if_pos skipped]
      refine ⟨recorded.sound, size, items, fun _ _ => recorded.labels_snoc (by nofun), kept rfl,
        ?_, lines, recorded.frames_snoc (by nofun), frames, asked⟩
      rw [lineNotes_line, ← last, if_pos skipped, recorded.lines]
    · dsimp only
      rw [if_neg skipped]
      refine ⟨recorded.sound, size, items, fun _ _ => recorded.labels_snoc (by nofun), kept rfl,
        ?_, ?_, recorded.frames_snoc (by nofun), frames, asked⟩
      · rw [lineNotes_line, ← last, if_neg skipped, Array.toList_push, recorded.lines,
          recorded.size]
      · rw [Array.toList_push, ← size]
        rw [← size] at lines
        exact lines.snoc n.toNat
  | catch_ c =>
    cases ran
    refine ⟨recorded.sound, size, items, fun _ _ => recorded.labels_snoc (by nofun), ?_,
      recorded.lines_snoc (by nofun), lines, recorded.frames_snoc (by nofun), frames, asked⟩
    rw [Array.toList_push, recorded.catchers, filterMap_append]
    rfl
  | _ => cases silent

theorem Recorded.runAll {more : List Call} (recorded : Recorded calls a)
    (proper : ∀ call ∈ more, call.isProper = true)
    (ran : (Call.runAll more).run.run a = (.ok (), b)) : Recorded (calls ++ more) b := by
  induction more generalizing calls a with
  | nil =>
    cases ran
    rwa [append_nil]
  | cons call more ih =>
    obtain ⟨here, later⟩ := forall_mem_cons.mp proper
    obtain ⟨⟨⟩, c, ended, ran⟩ := Asm.bind_ok ran
    have next : Recorded (calls ++ [call]) c := by
      cases adding : call.appends with
      | true => exact recorded.append adding here ended
      | false => exact recorded.silent adding ended
    have all := ih next later ran
    rwa [append_assoc] at all

end Step

/-!
## Entries by address

Lines and frames are recorded for the instruction that comes next and end up in
tables by address. Instructions have different addresses, so a table has one entry
for each instruction that something was recorded for, in ascending order, and what
was recorded last counts.
-/

variable {α : Type}

def lastAt (entries : List (Nat × α)) (place : Nat) : Option α :=
  ((entries.filter fun entry => entry.1 == place).getLast?).map Prod.snd

theorem lastAt_snoc (entries : List (Nat × α)) (here : Nat) (value : α) (place : Nat) :
    lastAt (entries ++ [(here, value)]) place =
      if here = place then some value else lastAt entries place := by
  rw [lastAt, filter_append]
  by_cases same : here = place
  · simp [same]
  · simp [same, lastAt]

theorem exists_of_lastAt {entries : List (Nat × α)} {place : Nat} {value : α}
    (found : lastAt entries place = some value) : (place, value) ∈ entries := by
  obtain ⟨entry, last, rfl⟩ := Option.map_eq_some_iff.mp found
  obtain ⟨member, here⟩ := mem_filter.mp (mem_of_getLast? last)
  rwa [← eq_of_beq here]

theorem lastAt_of_mem {entries : List (Nat × α)} {place : Nat} {value : α}
    (member : (place, value) ∈ entries) : ∃ last, lastAt entries place = some last := by
  have listed : (place, value) ∈ entries.filter fun entry => entry.1 == place :=
    mem_filter.mpr ⟨member, beq_self_eq_true place⟩
  obtain ⟨entry, last⟩ := Option.ne_none_iff_exists'.mp fun none =>
    ne_nil_of_mem listed (getLast?_eq_none_iff.mp none)
  exact ⟨entry.2, by rw [lastAt, last]; rfl⟩

/-- Enters a value into a table with the last address first. -/
def enter (pc : Nat) (value : α) : List (Nat × α) → List (Nat × α)
  | [] => [(pc, value)]
  | (last, old) :: rest =>
    if last = pc then (pc, value) :: rest else (pc, value) :: (last, old) :: rest

theorem enter_eq {pc : Nat} {found : List (Nat × α)}
    (descends : found.Pairwise fun a b => b.1 < a.1) (highest : ∀ entry ∈ found, entry.1 ≤ pc)
    (value : α) : enter pc value found = (pc, value) :: found.filter fun entry => entry.1 != pc := by
  cases found with
  | nil => rfl
  | cons entry found =>
    obtain ⟨last, old⟩ := entry
    obtain ⟨below, -⟩ := pairwise_cons.mp descends
    have least : last ≤ pc := highest _ mem_cons_self
    have others : found.filter (fun entry => entry.1 != pc) = found := by
      refine filter_eq_self.mpr fun entry member => ?_
      have less : entry.1 < pc := lt_of_lt_of_le (below entry member) least
      exact bne_iff_ne.mpr (Nat.ne_of_lt less)
    by_cases same : last = pc
    · rw [enter, if_pos same, filter_cons_of_neg (by simpa using same), others]
    · rw [enter, if_neg same, filter_cons_of_pos (by simpa using same), others]

/-- The table of entries with the last address first. -/
def entered (addresses : Array Nat) (stop : Nat) (entries : List (Nat × α)) : List (Nat × α) :=
  entries.foldl (fun found entry => if addresses.getD entry.1 0 ≥ stop then found
    else enter (addresses.getD entry.1 0) entry.2 found) []

theorem byAddress_eq (addresses : Array Nat) (stop : Nat) (entries : List (Nat × α)) :
    Assembler.byAddress addresses stop entries = (entered addresses stop entries).reverse := by
  refine congrArg (fun step => (entries.foldl step []).reverse) ?_
  funext found entry
  cases found <;> rfl

section ByAddress

variable {addresses : Array Nat} {last : Nat} {entries : List (Nat × α)}

section

variable (ascending : Ascending entries last)
  (apart : ∀ i j, i < j → j ≤ last → addresses.getD i 0 < addresses.getD j 0) (stop : Nat)

include ascending apart

theorem entered_spec :
    (∀ pc value, (pc, value) ∈ entered addresses stop entries ↔
      pc < stop ∧ ∃ place, addresses.getD place 0 = pc ∧ lastAt entries place = some value) ∧
    (entered addresses stop entries).Pairwise fun a b => b.1 < a.1 := by
  induction entries using List.reverseRecOn with
  | nil => exact ⟨fun pc value => by simp [entered, lastAt], .nil⟩
  | append_singleton entries entry ih =>
    obtain ⟨here, value⟩ := entry
    obtain ⟨sorted, -, least⟩ := pairwise_append.mp ascending.sorted
    obtain ⟨members, descends⟩ := ih
      ⟨sorted, fun entry member => ascending.bounded entry (mem_append_left _ member)⟩
    have bounded : here ≤ last :=
      ascending.bounded (here, value) (mem_append_right _ mem_cons_self)
    -- An entry that was there is for this place or for one in front of it.
    have before : ∀ {place : Nat} {old : α}, lastAt entries place = some old →
        place = here ∨ addresses.getD place 0 < addresses.getD here 0 := by
      intro place old found
      have lower : place ≤ here :=
        least _ (exists_of_lastAt found) (here, value) mem_cons_self
      rcases Nat.lt_or_eq_of_le lower with less | same
      · exact .inr (apart place here less bounded)
      · exact .inl same
    have step : entered addresses stop (entries ++ [(here, value)]) =
        if addresses.getD here 0 ≥ stop then entered addresses stop entries
        else enter (addresses.getD here 0) value (entered addresses stop entries) := by
      rw [entered, foldl_append]
      rfl
    rw [step]
    by_cases outside : addresses.getD here 0 ≥ stop
    · rw [if_pos outside]
      refine ⟨fun pc old => ?_, descends⟩
      rw [members]
      refine and_congr_right fun inside => exists_congr fun place => and_congr_right fun at_ => ?_
      rw [lastAt_snoc, if_neg]
      rintro rfl
      omega
    · rw [if_neg outside]
      have highest : ∀ entry ∈ entered addresses stop entries,
          entry.1 ≤ addresses.getD here 0 := by
        rintro ⟨pc, old⟩ member
        obtain ⟨-, place, rfl, found⟩ := (members pc old).mp member
        rcases before found with rfl | less
        · exact Nat.le_refl _
        · exact Nat.le_of_lt less
      rw [enter_eq descends highest]
      refine ⟨fun pc old => ?_, pairwise_cons.mpr ⟨?_, descends.filter _⟩⟩
      · rw [mem_cons, mem_filter, members, Prod.mk.injEq, bne_iff_ne]
        constructor
        · rintro (⟨rfl, rfl⟩ | ⟨⟨inside, place, rfl, found⟩, elsewhere⟩)
          · exact ⟨Nat.lt_of_not_le outside, here, rfl, by rw [lastAt_snoc, if_pos rfl]⟩
          · refine ⟨inside, place, rfl, ?_⟩
            rw [lastAt_snoc, if_neg, found]
            rintro rfl
            exact elsewhere rfl
        · rintro ⟨inside, place, rfl, found⟩
          rw [lastAt_snoc] at found
          split at found
          next same =>
            cases found
            exact .inl ⟨by rw [same], rfl⟩
          next other =>
            refine .inr ⟨⟨inside, place, rfl, found⟩, ?_⟩
            rcases before found with same | less
            · exact absurd same.symm other
            · exact Nat.ne_of_lt less
      · intro entry member
        obtain ⟨listed, elsewhere⟩ := mem_filter.mp member
        exact Nat.lt_of_le_of_ne (highest entry listed) (bne_iff_ne.mp elsewhere)

/-- The table by address has one entry for each address of an instruction that something was
recorded for, in ascending order. -/
theorem byAddress_spec :
    (∀ pc value, (pc, value) ∈ Assembler.byAddress addresses stop entries ↔
      pc < stop ∧ ∃ place, addresses.getD place 0 = pc ∧ lastAt entries place = some value) ∧
    (Assembler.byAddress addresses stop entries).Pairwise fun a b => a.1 < b.1 := by
  obtain ⟨members, descends⟩ := entered_spec ascending apart stop
  rw [byAddress_eq]
  exact ⟨fun pc value => mem_reverse.trans (members pc value), pairwise_reverse.mpr descends⟩

end

end ByAddress

end DexLift.Jvm
