import DexLift.Proofs.Ir.Trails

/-!
# Writing a value where it is read

A definition is taken out of the body and its value written into the statement
that reads it, further down in the same block. Every other statement keeps its
place among the others, so blocks, edges and handlers are the same, and every
path through the new body is one through the old body that has assigned at most
the local taken out in addition.
-/

namespace DexLift.Ir

open List Method Ir.Action

variable {position : Nat} {b a : Action} {x : Label} {assigned entered : List LocalId}
  {way : Label × Bool}

theorem getElem?_length_add {α : Type} (xs ys : List α) (index : Nat) :
    (xs ++ ys)[xs.length + index]? = ys[index]? := by
  rw [getElem?_append_right (Nat.le_add_right ..), Nat.add_sub_cancel_left]

/-- A definition, the statements between it and its reader, and what is around them. -/
structure Fold where
  before : List Action
  l : LocalId
  value : Expr
  between : List Action
  reader : Action
  after : List Action

variable {f : Fold}

namespace Fold

/-- Where the definition stands. -/
def place (f : Fold) : Nat := f.before.length

/-- How many statements stand between the definition and its reader. -/
def gap (f : Fold) : Nat := f.between.length

/-- Where a statement stood before the definition was taken out. -/
def origin (f : Fold) (position : Nat) : Nat := if position < f.place then position else position + 1

theorem origin_of_lt (less : position < f.place) :
    f.origin position = position := if_pos less

theorem origin_of_ge (le : f.place ≤ position) :
    f.origin position = position + 1 := if_neg (Nat.not_lt.mpr le)

theorem origin_lt_origin {first second : Nat} :
    f.origin first < f.origin second ↔ first < second := by
  unfold origin
  split <;> split <;> omega

theorem origin_ne_place (f : Fold) (position : Nat) : f.origin position ≠ f.place := by
  unfold origin
  split <;> omega

theorem getElem?_reader (f : Fold) :
    (f.before ++ .assign f.l f.value :: (f.between ++ f.reader :: f.after))[
      f.place + 1 + f.gap]? = some f.reader := by
  rw [place, gap, Nat.add_assoc, getElem?_length_add, Nat.add_comm 1, getElem?_cons_succ]
  simp

theorem getElem?_between (f : Fold) {j : Nat} (inside : j < f.gap) :
    (f.before ++ .assign f.l f.value :: (f.between ++ f.reader :: f.after))[f.place + 1 + j]? =
      some f.between[j] := by
  rw [place, Nat.add_assoc, getElem?_length_add, Nat.add_comm 1, getElem?_cons_succ,
    getElem?_append_left inside, getElem?_eq_getElem inside]

theorem getElem?_origin (f : Fold) (changed : Action) (other : position ≠ f.place + f.gap) :
    (f.before ++ (f.between ++ changed :: f.after))[position]? =
      (f.before ++ .assign f.l f.value :: (f.between ++ f.reader :: f.after))[
        f.origin position]? := by
  rcases Nat.lt_or_ge position f.place with less | le
  · rw [origin_of_lt less, getElem?_append_left less, getElem?_append_left less]
  · obtain ⟨offset, rfl⟩ := Nat.exists_eq_add_of_le le
    rw [origin_of_ge le, place, Nat.add_assoc, getElem?_length_add, getElem?_length_add,
      getElem?_cons_succ]
    rcases Nat.lt_or_ge offset f.gap with inside | behind
    · rw [getElem?_append_left inside, getElem?_append_left inside]
    · obtain ⟨more, rfl⟩ := Nat.exists_eq_add_of_lt (Nat.lt_of_le_of_ne behind fun same =>
        other (by rw [same]))
      rw [gap, Nat.add_assoc, getElem?_length_add, getElem?_length_add,
        getElem?_cons_succ, getElem?_cons_succ]

theorem exists_origin (other : position ≠ f.place) : ∃ p, f.origin p = position := by
  rcases Nat.lt_or_gt_of_ne other with less | greater
  · exact ⟨position, origin_of_lt less⟩
  · exact ⟨position - 1, by rw [origin_of_ge (by omega)]; omega⟩

/-- One body is another with the definition taken out and its reader changed. -/
structure Takes (f : Fold) (changed : Action) (source target : Method) : Prop where
  tidy : source.Tidy
  tidyTarget : target.Tidy
  source_eq : source.actions = f.before ++ .assign f.l f.value :: (f.between ++ f.reader :: f.after)
  target_eq : target.actions = f.before ++ (f.between ++ changed :: f.after)
  unlabelled : f.reader.label? = none ∧ changed.label? = none

namespace Takes

variable {f : Fold} {changed : Action} {source target : Method}
  (takes : f.Takes changed source target)

include takes

theorem get_place : source.actions[f.place]? = some (.assign f.l f.value) := by
  rw [takes.source_eq, Fold.place]
  simp

theorem get_reader : source.actions[f.place + 1 + f.gap]? = some f.reader := by
  rw [takes.source_eq]
  exact f.getElem?_reader

theorem get_changed : target.actions[f.place + f.gap]? = some changed := by
  rw [takes.target_eq, Fold.place, Fold.gap]
  simp

theorem get_between {j : Nat} (inside : j < f.gap) :
    ∃ a ∈ f.between, source.actions[f.place + 1 + j]? = some a := by
  refine ⟨f.between[j], getElem_mem inside, ?_⟩
  rw [takes.source_eq]
  exact f.getElem?_between inside

theorem get (other : position ≠ f.place + f.gap) :
    target.actions[position]? = source.actions[f.origin position]? := by
  rw [takes.source_eq, takes.target_eq]
  exact f.getElem?_origin _ other

theorem length_eq : source.actions.length = target.actions.length + 1 := by
  rw [takes.source_eq, takes.target_eq]
  simp only [length_append, length_cons]
  omega

theorem get_cases (found : target.actions[position]? = some b) :
    (position ≠ f.place + f.gap ∧ source.actions[f.origin position]? = some b) ∨
      (position = f.place + f.gap ∧ b = changed) := by
  by_cases here : position = f.place + f.gap
  · subst here
    exact .inr ⟨rfl, Option.some.inj (found.symm.trans takes.get_changed)⟩
  · exact .inl ⟨here, (takes.get here).symm.trans found⟩

theorem label_iff :
    target.actions[position]? = some (.label x) ↔
      source.actions[f.origin position]? = some (.label x) := by
  by_cases here : position = f.place + f.gap
  · subst here
    rw [takes.get_changed, Fold.origin_of_ge (by omega), Nat.add_right_comm, takes.get_reader]
    have labels : ∀ {a : Action}, a.label? = none → a ≠ .label x := by
      rintro a plain rfl
      cases plain
    exact iff_of_false (fun same => labels takes.unlabelled.2 (Option.some.inj same))
      fun same => labels takes.unlabelled.1 (Option.some.inj same)
  · rw [takes.get here]

theorem find_iff : target.find? x = some position ↔ source.find? x = some (f.origin position) := by
  rw [takes.tidy.find?_eq_some, takes.tidyTarget.find?_eq_some, takes.label_iff]

end Takes

end Fold

/-- One method is another with a definition written into its reader. The value is pure, or nothing
that is not pure is evaluated between the definition and the read. -/
structure Folds (source target : Method) (f : Fold) : Prop where
  tidy : source.Tidy
  tidyTarget : target.Tidy
  source_eq : source.actions = f.before ++ .assign f.l f.value :: (f.between ++ f.reader :: f.after)
  target_eq : target.actions =
    f.before ++ (f.between ++ f.reader.replaceLocal f.l f.value :: f.after)
  traps : target.traps = source.traps
  plain : ∀ a ∈ f.between, a.label? = none ∧ a.isPhi = false ∧ a.endsBlock = false
  reads : f.reader.isReader = true
  once : (source.actions.flatMap Action.uses).count f.l = 1
  evaluates : f.l ∈ f.reader.inputs.flatMap Expr.uses
  unjoined : ∀ a ∈ source.actions, ∀ arg ∈ a.phiArgs, arg.value ≠ f.l
  moves : f.value.isPure = true ∨
    (∀ a ∈ f.between, a.isPure = true) ∧ FirstRead f.l f.reader.inputs

theorem Action.plain_of_isReader (reader : a.isReader = true) :
    a.label? = none ∧ a.isPhi = false := by
  cases a with
  | label | phi | identity | nop | goto => cases reader
  | _ => exact ⟨rfl, rfl⟩

namespace Folds

variable {source target : Method} {f : Fold} (folds : Folds source target f)

include folds

/-! ## Positions -/

theorem takes : f.Takes (f.reader.replaceLocal f.l f.value) source target where
  tidy := folds.tidy
  tidyTarget := folds.tidyTarget
  source_eq := folds.source_eq
  target_eq := folds.target_eq
  unlabelled := by
    have plain := (plain_of_isReader folds.reads).1
    exact ⟨plain, (label?_replaceLocal ..).trans plain⟩

theorem lt_length : f.place + 1 + f.gap < source.actions.length :=
  (lt_of_get folds.takes.get_reader)

theorem exists_get (found : target.actions[position]? = some b) :
    ∃ a, source.actions[f.origin position]? = some a ∧ a.label? = b.label? ∧ a.isPhi = b.isPhi ∧
      a.phiArgs = b.phiArgs ∧ a.targets = b.targets ∧ a.fallsThrough = b.fallsThrough ∧
      a.endsBlock = b.endsBlock ∧ a.defines? = b.defines? := by
  rcases folds.takes.get_cases found with ⟨-, same⟩ | ⟨rfl, rfl⟩
  · exact ⟨b, same, rfl, rfl, rfl, rfl, rfl, rfl, rfl⟩
  · refine ⟨f.reader, ?_, by simp⟩
    rw [Fold.origin_of_ge (by omega), Nat.add_right_comm]
    exact folds.takes.get_reader

theorem plain_inside (low : f.place ≤ position) (high : position ≤ f.place + 1 + f.gap) :
    ∃ a, source.actions[position]? = some a ∧ a.label? = none ∧ a.isPhi = false ∧
      (position ≠ f.place + 1 + f.gap → a.endsBlock = false) := by
  rcases Nat.eq_or_lt_of_le low with rfl | behind
  · exact ⟨_, folds.takes.get_place, rfl, rfl, fun _ => rfl⟩
  · rcases Nat.eq_or_lt_of_le high with rfl | inside
    · exact ⟨_, folds.takes.get_reader, (plain_of_isReader folds.reads).1,
        (plain_of_isReader folds.reads).2, fun contrary => absurd rfl contrary⟩
    · obtain ⟨j, rfl⟩ := Nat.exists_eq_add_of_lt behind
      have bound : j < f.gap := by omega
      obtain ⟨a, member, found⟩ := folds.takes.get_between bound
      obtain ⟨label, phi, ends⟩ := folds.plain a member
      exact ⟨a, by rwa [Nat.add_right_comm] at found, label, phi, fun _ => ends⟩

theorem outside_of_label (found : source.actions[position]? = some (.label x)) :
    position < f.place ∨ f.place + 1 + f.gap < position := by
  by_contra inside
  have low : f.place ≤ position := by omega
  obtain ⟨a, here, plain, -⟩ := folds.plain_inside low (by omega)
  cases found.symm.trans here
  cases plain

/-! ## Labels and blocks -/

theorem opens_eq : target.opens = source.opens := by
  have form : ∀ a : Action, (a.replaceLocal f.l f.value).targets = a.targets ∧
      (a.replaceLocal f.l f.value).phiArgs = a.phiArgs := fun a => ⟨by simp, by simp⟩
  have labels : target.phiLabels = source.phiLabels := by
    rw [phiLabels, phiLabels, folds.source_eq, folds.target_eq]
    have changed : ∀ state, phiStep state (f.reader.replaceLocal f.l f.value) = state := fun state =>
      phiStep_plain [f.reader.replaceLocal f.l f.value] state fun a member => by
        rw [mem_singleton.mp member]
        simpa using plain_of_isReader folds.reads
    have reader : ∀ state, phiStep state f.reader = state := fun state =>
      phiStep_plain [f.reader] state fun a member => by
        rw [mem_singleton.mp member]
        exact plain_of_isReader folds.reads
    have definition : ∀ state, phiStep state (.assign f.l f.value) = state := fun _ => rfl
    simp only [foldl_append, foldl_cons, changed, reader, definition]
  funext x
  unfold opens EdgeTable.openers
  rw [folds.traps, labels, folds.source_eq, folds.target_eq]
  simp only [flatMap_append, flatMap_cons, form]
  rfl

theorem find_source (found : source.find? x = some position) :
    ∃ p, position = f.origin p ∧ target.find? x = some p ∧
      (position < f.place ∨ f.place + 1 + f.gap < position) := by
  have outside := folds.outside_of_label (folds.tidy.find?_eq_some.mp found)
  have other : position ≠ f.place := by omega
  obtain ⟨p, rfl⟩ := f.exists_origin other
  exact ⟨p, rfl, folds.takes.find_iff.mpr found, outside⟩

theorem find_none (absent : source.find? x = none) : target.find? x = none := by
  cases found : target.find? x with
  | none => rfl
  | some p =>
    rw [folds.takes.find_iff.mp found] at absent
    cases absent

theorem covered_eq (t : Trap) (position : Nat) :
    target.covered t position = source.covered t (f.origin position) := by
  unfold covered
  cases start : source.find? t.start with
  | none => rw [folds.find_none start]
  | some first =>
    obtain ⟨p, rfl, there, -⟩ := folds.find_source start
    rw [there]
    cases stop : source.find? t.stop with
    | none => rw [folds.find_none stop]
    | some last =>
      obtain ⟨q, rfl, here, -⟩ := folds.find_source stop
      simp only [here, Fold.origin_lt_origin]

theorem covered_place (t : Trap) :
    source.covered t f.place = source.covered t (f.place + 1 + f.gap) := by
  unfold covered
  cases start : source.find? t.start with
  | none => rfl
  | some first =>
    obtain ⟨-, -, -, outside⟩ := folds.find_source start
    cases stop : source.find? t.stop with
    | none => rfl
    | some last =>
      obtain ⟨-, -, -, outsideStop⟩ := folds.find_source stop
      simp only [Bool.and_eq_decide, decide_eq_decide, decide_eq_true_eq]
      omega

theorem enters_eq (position : Nat) : target.enters position = source.enters (f.origin position) := by
  have labels : ∀ {x : Label}, target.actions[position]? = some (.label x) →
      source.enters (f.origin position) = target.enters position := by
    intro x found
    unfold enters
    rw [found, folds.takes.label_iff.mp found, folds.opens_eq]
  by_cases label : ∃ x, target.actions[position]? = some (.label x)
  · obtain ⟨x, found⟩ := label
    exact (labels found).symm
  · have none : target.enters position = false := by
      unfold enters
      split
      next x found => exact absurd ⟨x, found⟩ label
      · rfl
    have noneSource : source.enters (f.origin position) = false := by
      unfold enters
      split
      next x found => exact absurd ⟨x, folds.takes.label_iff.mpr found⟩ label
      · rfl
    rw [none, noneSource]

theorem enters_inside (low : f.place ≤ position) (high : position ≤ f.place + 1 + f.gap) :
    source.enters position = false := by
  obtain ⟨a, found, plain, -⟩ := folds.plain_inside low high
  exact enters_of_plain found plain

theorem pass_eq (found : target.actions[position]? = some b) :
    ∃ a, source.actions[f.origin position]? = some a ∧
      ∀ s : Standing, s.pass target.opens b = s.pass source.opens a := by
  rw [folds.opens_eq]
  rcases folds.takes.get_cases found with ⟨-, same⟩ | ⟨rfl, rfl⟩
  · exact ⟨b, same, fun _ => rfl⟩
  · refine ⟨f.reader, ?_, fun s => ?_⟩
    · rw [Fold.origin_of_ge (by omega), Nat.add_right_comm]
      exact folds.takes.get_reader
    · generalize f.reader = a
      cases a <;> rfl

theorem standing_eq (found : target.actions[position]? = some b) :
    target.standing (position + 1) = source.standing (f.origin position + 1) := by
  have next : ∀ {position : Nat} {b : Action}, target.actions[position]? = some b →
      target.standing position = source.standing (f.origin position) →
      target.standing (position + 1) = source.standing (f.origin position + 1) := by
    intro position b found same
    obtain ⟨a, here, passes⟩ := folds.pass_eq found
    rw [standing_next (from_of_get found), standing_next (from_of_get here), same, passes]
  have early : ∀ position ≤ f.place, target.standing position = source.standing position := by
    intro position le
    rw [standing, standing, folds.opens_eq, folds.source_eq, folds.target_eq,
      take_append_of_le_length le, take_append_of_le_length le]
  rcases Nat.lt_or_ge position f.place with less | ge
  · refine next found ?_
    rw [Fold.origin_of_lt less]
    exact early position (le_of_lt less)
  · induction position, ge using Nat.le_induction generalizing b with
    | base =>
      -- Passing over the definition first makes no difference for the statement behind it.
      obtain ⟨a, here, passes⟩ := folds.pass_eq found
      rw [Fold.origin_of_ge le_rfl] at here ⊢
      obtain ⟨_, there, plain, -⟩ := folds.plain_inside (Nat.le_succ f.place) (by omega)
      cases here.symm.trans there
      rw [standing_next (from_of_get found), standing_next (from_of_get here),
        standing_next (from_of_get folds.takes.get_place), early _ le_rfl, passes]
      obtain ⟨block, ended⟩ := source.standing f.place
      cases a with
      | label => cases plain
      | _ => cases ended <;> rfl
    | succ position le ih =>
      have before : position < target.actions.length :=
        Nat.lt_of_succ_lt (lt_of_get found)
      refine next found ?_
      rw [ih (getElem?_eq_getElem before), Fold.origin_of_ge le,
        Fold.origin_of_ge (Nat.le_succ_of_le le)]

theorem blockAt_eq (inside : position < target.actions.length) :
    target.blockAt position = source.blockAt (f.origin position) :=
  congrArg _ (folds.standing_eq (getElem?_eq_getElem inside))

theorem blockAt_place : source.blockAt f.place = source.blockAt (f.place + 1 + f.gap) := by
  have stays : ∀ j ≤ f.gap, (source.standing (f.place + 1 + j)).block = source.blockAt f.place ∧
        ((source.standing (f.place + 1 + j)).ended = true →
          (source.standing (f.place + 1 + j)).block = .nowhere) := by
    intro j
    induction j with
    | zero =>
      intro _
      refine ⟨rfl, ?_⟩
      rw [Nat.add_zero, Method.standing_next (Method.from_of_get folds.takes.get_place)]
      obtain ⟨block, ended⟩ := source.standing f.place
      cases ended
      · exact fun contrary => nomatch contrary
      · exact fun _ => rfl
    | succ j ih =>
      intro le
      obtain ⟨same, closed⟩ := ih (Nat.le_of_succ_le le)
      obtain ⟨a, member, found⟩ := folds.takes.get_between (Nat.lt_of_succ_le le)
      obtain ⟨plain, -, ends⟩ := folds.plain a member
      rw [← Nat.add_assoc, Method.standing_next (Method.from_of_get found), ← same]
      generalize source.standing (f.place + 1 + j) = here at closed ⊢
      obtain ⟨block, ended⟩ := here
      cases ended with
      | false =>
        rw [pass_plain plain, ends]
        exact ⟨rfl, fun contrary => nomatch contrary⟩
      | true =>
        have nowhere : block = .nowhere := closed rfl
        cases a with
        | label => cases plain
        | _ => exact ⟨nowhere.symm, fun _ => rfl⟩
  obtain ⟨same, closed⟩ := stays f.gap le_rfl
  have plain := (plain_of_isReader folds.reads).1
  rw [Method.blockAt_eq (Method.from_of_get folds.takes.get_reader), ← same]
  generalize source.standing (f.place + 1 + f.gap) = here at closed ⊢
  obtain ⟨block, ended⟩ := here
  cases ended with
  | false => rw [pass_plain plain]
  | true =>
    have nowhere : block = .nowhere := closed rfl
    generalize f.reader = a at plain
    cases a with
    | label => cases plain
    | _ => exact nowhere

/-! ## Trails -/

theorem walk_back (trail : source.Trail position assigned way entered) (low : f.place < position)
    (high : position ≤ f.place + 1 + f.gap) :
    ∃ earlier, source.Trail f.place earlier way entered ∧ earlier ⊆ assigned := by
  obtain ⟨a, here, plain, -⟩ := folds.plain_inside (le_of_lt low) high
  have notLabel : ∀ x, source.find? x ≠ some position := by
    intro x found
    cases here.symm.trans (folds.tidy.find?_eq_some.mp found)
    cases plain
  have inside := enters_of_plain here plain
  induction trail generalizing a with
  | start => exact absurd low (Nat.not_lt_zero _)
  | @normal position next assigned entered way trail edge ih =>
    obtain ⟨b, found, ⟨-, -, rfl⟩ | ⟨x, -, there⟩⟩ := folds.tidy.mem_succsOf.mp edge
    · simp only [inside, Bool.false_eq_true, if_false]
      rcases Nat.eq_or_lt_of_le (Nat.le_of_lt_succ low) with same | behind
      · subst same
        exact ⟨assigned, trail, subset_append_right _ _⟩
      · obtain ⟨c, there, plainThere, -⟩ :=
          folds.plain_inside (le_of_lt behind) (Nat.le_of_succ_le high)
        obtain ⟨earlier, first, sub⟩ := ih behind (Nat.le_of_succ_le high) c there plainThere (by
            intro x found
            cases there.symm.trans (folds.tidy.find?_eq_some.mp found)
            cases plainThere) (enters_of_plain there plainThere)
        exact ⟨earlier, first, fun x member => mem_append_right _ (sub member)⟩
    · exact absurd there (notLabel x)
  | thrown trail edge =>
    obtain ⟨b, found, -, t, -, -, there⟩ := folds.tidy.mem_exSuccsOf.mp edge
    exact absurd there (notLabel _)

theorem fresh (single : source.SingleAssignment) {x : LocalId}
    (found : source.actions[position]? = some a) (defines : a.defines? = some x)
    (low : f.place ≤ position) (high : position ≤ f.place + f.gap)
    (trail : source.Trail f.place assigned way entered) :
    ¬ (Flow.ofMethod source).Assigns f.place x := by
  -- Either the trail has not come by the definition of the local, or it had come by this one first.
  have some_ : ∀ {p assigned way entered}, source.Trail p assigned way entered → x ∉ assigned ∨
      ∃ assigned way entered, source.Trail f.place assigned way entered ∧ x ∉ assigned := by
    intro p assigned way entered trail
    induction trail with
    | start => exact .inl (not_mem_nil)
    | @normal p next assigned entered way trail edge ih =>
      rcases ih with absent | other
      · obtain ⟨b, here, -⟩ := folds.tidy.mem_succsOf.mp edge
        rw [definedAt_eq here]
        by_cases own : b.defines? = some x
        · have same := single.once p position b a x here found own defines
          subst same
          rcases Nat.eq_or_lt_of_le low with first | behind
          · exact .inr ⟨assigned, way, entered, first ▸ trail, absent⟩
          · obtain ⟨earlier, first, sub⟩ := folds.walk_back trail behind (by omega)
            exact .inr ⟨earlier, way, entered, first, fun member => absent (sub member)⟩
        · left
          intro member
          rcases mem_append.mp member with here | before
          · exact own (Option.mem_toList.mp here)
          · exact absent before
      · exact .inr other
    | thrown _ _ ih => exact ih
  intro always
  rcases some_ trail with absent | ⟨earlier, otherWay, otherEntered, first, absent⟩
  · exact absent (always assigned trail.path)
  · exact absent (always earlier first.path)

/-- Every trail through the new body is one through the old body, which has assigned at most the
local taken out in addition. -/
theorem lift (proper : source.Proper) (trail : target.Trail position assigned way entered) :
    ∃ earlier earlierEntered, source.Trail (f.origin position) earlier way earlierEntered ∧
      earlier ⊆ f.l :: assigned ∧ earlierEntered ⊆ f.l :: entered := by
  have inBody := folds.lt_length
  have length := folds.takes.length_eq
  have definition : f.place + 1 ∈ (Flow.ofMethod source).succsOf f.place :=
    folds.tidy.mem_succsOf.mpr ⟨_, folds.takes.get_place, .inl ⟨rfl, by omega, rfl⟩⟩
  have notEntered := folds.enters_inside (Nat.le_succ f.place) (by omega)
  have wider : ∀ {xs ys : List LocalId} (zs : List LocalId), xs ⊆ f.l :: ys →
      zs ++ xs ⊆ f.l :: (zs ++ ys) := by grind
  -- Behind the definition when it is the first statement that is new.
  have through : ∀ {earlier earlierEntered assigned entered : List LocalId} {way : Label × Bool},
      source.Trail f.place earlier way earlierEntered → earlier ⊆ f.l :: assigned →
      earlierEntered ⊆ f.l :: entered → ∃ earlier earlierEntered,
        source.Trail (f.place + 1) earlier way earlierEntered ∧ earlier ⊆ f.l :: assigned ∧
          earlierEntered ⊆ f.l :: entered := by
    intro earlier earlierEntered assigned entered way trail sub subEntered
    have more := trail.normal definition
    rw [notEntered, definedAt_eq folds.takes.get_place] at more
    refine ⟨_, _, more, ?_, subEntered⟩
    intro x member
    rcases mem_cons.mp member with rfl | before
    · exact mem_cons_self
    · exact sub before
  induction trail with
  | start =>
    rcases Nat.eq_zero_or_pos f.place with first | later
    · rw [Fold.origin_of_ge (Nat.le_of_eq first), ← first]
      exact through (first ▸ .start) (nil_subset _) (nil_subset _)
    · rw [Fold.origin_of_lt later]
      exact ⟨[], [], .start, nil_subset _, nil_subset _⟩
  | @normal p q assigned entered way trail edge ih =>
    obtain ⟨earlier, earlierEntered, lifted, sub, subEntered⟩ := ih
    obtain ⟨b, found, goes⟩ := folds.tidyTarget.mem_succsOf.mp edge
    obtain ⟨a, here, -, -, -, targets, falls, -, defines⟩ := folds.exists_get found
    have sameDefined : target.definedAt p = source.definedAt (f.origin p) := by
      rw [definedAt_eq found, definedAt_eq here, defines]
    have bound : p < target.actions.length := lt_of_get found
    rw [folds.enters_eq, folds.blockAt_eq bound, sameDefined]
    have along : ∀ goal, goal ∈ (Flow.ofMethod source).succsOf (f.origin p) →
        ∃ earlier earlierEntered, source.Trail goal earlier
          (if source.enters goal then (source.blockAt (f.origin p), false) else way) earlierEntered ∧
          earlier ⊆ f.l :: (source.definedAt (f.origin p) ++ assigned) ∧
          earlierEntered ⊆ f.l :: if source.enters goal then
            source.definedAt (f.origin p) ++ assigned else entered := by
      intro goal edge
      refine ⟨_, _, lifted.normal edge, wider _ sub, ?_⟩
      split
      · exact wider _ sub
      · exact subEntered
    rcases goes with ⟨continues, inside, rfl⟩ | ⟨x, member, there⟩
    · rcases Nat.lt_trichotomy (p + 1) f.place with less | same | greater
      · rw [Fold.origin_of_lt less]
        rw [Fold.origin_of_lt (Nat.lt_of_succ_lt less)] at here along ⊢
        exact along (p + 1) (folds.tidy.mem_succsOf.mpr
          ⟨a, here, .inl ⟨falls ▸ continues, by omega, rfl⟩⟩)
      · have origin : f.origin p = p := Fold.origin_of_lt (by omega)
        obtain ⟨earlier, earlierEntered, middle, sub, subEntered⟩ := along (p + 1) (by
          rw [origin] at here ⊢
          exact folds.tidy.mem_succsOf.mpr ⟨a, here, .inl ⟨falls ▸ continues, by omega, rfl⟩⟩)
        have notPlace := folds.enters_inside (Nat.le_refl f.place) (by omega)
        rw [same] at middle subEntered ⊢
        rw [notPlace] at middle subEntered
        rw [Fold.origin_of_ge (Nat.le_refl _), notEntered]
        exact through middle sub subEntered
      · rw [Fold.origin_of_ge (by omega)]
        refine along (p + 1 + 1) (folds.tidy.mem_succsOf.mpr ⟨a, here, .inl ⟨falls ▸ continues, ?_, ?_⟩⟩)
        · rw [Fold.origin_of_ge (by omega)]
          omega
        · rw [Fold.origin_of_ge (by omega)]
    · exact along _ (folds.tidy.mem_succsOf.mpr
        ⟨a, here, .inr ⟨x, targets ▸ member, folds.takes.find_iff.mp there⟩⟩)
  | @thrown p q assigned entered way trail edge ih =>
    obtain ⟨earlier, earlierEntered, lifted, sub, subEntered⟩ := ih
    obtain ⟨b, found, throws, t, listed, covers, there⟩ := folds.tidyTarget.mem_exSuccsOf.mp edge
    have bound : p < target.actions.length := lt_of_get found
    rw [folds.traps] at listed
    rw [folds.covered_eq] at covers
    have goal := folds.takes.find_iff.mp there
    rw [folds.enters_eq, folds.blockAt_eq bound]
    have along : ∀ {place : Nat} {earlier earlierEntered : List LocalId} {a : Action},
        source.Trail place earlier way earlierEntered → earlier ⊆ f.l :: assigned →
        earlierEntered ⊆ f.l :: entered → source.actions[place]? = some a → a.canThrow = true →
        source.covered t place = true → source.blockAt place = source.blockAt (f.origin p) →
        ∃ earlier earlierEntered, source.Trail (f.origin q) earlier
          (if source.enters (f.origin q) then (source.blockAt (f.origin p), true) else way)
            earlierEntered ∧ earlier ⊆ f.l :: assigned ∧
          earlierEntered ⊆ f.l :: if source.enters (f.origin q) then assigned else entered := by
      intro place earlier earlierEntered a trail sub subEntered found throws covers block
      have more := trail.thrown
        (folds.tidy.mem_exSuccsOf.mpr ⟨a, found, throws, t, listed, covers, goal⟩)
      rw [block] at more
      refine ⟨_, _, more, sub, ?_⟩
      split
      · exact sub
      · exact subEntered
    rcases folds.takes.get_cases found with ⟨-, same⟩ | ⟨rfl, rfl⟩
    · exact along lifted sub subEntered same throws covers rfl
    · have origin : f.origin (f.place + f.gap) = f.place + 1 + f.gap := by
        rw [Fold.origin_of_ge (by omega), Nat.add_right_comm]
      have readerProper := proper.operands _ (mem_of_getElem? folds.takes.get_reader)
      rcases readerProper.canThrow_replaceLocal folds.reads throws with own | written
      · exact along lifted sub subEntered (origin ▸ folds.takes.get_reader) own covers rfl
      · -- The value throws, so the definition did.
        rw [origin] at lifted covers
        obtain ⟨first, begun, shorter⟩ := folds.walk_back lifted (by omega) (Nat.le_refl _)
        refine along begun (fun x member => sub (shorter member)) subEntered folds.takes.get_place ?_ ?_ ?_
        · rw [canThrow_eq rfl]
          simp [parts, written]
        · rwa [folds.covered_place]
        · rw [origin]
          exact folds.blockAt_place

/-! ## What is kept -/

theorem mem_definition : .assign f.l f.value ∈ source.actions :=
  mem_of_getElem? folds.takes.get_place

theorem mem_reader : f.reader ∈ source.actions := mem_of_getElem? folds.takes.get_reader

section

variable (proper : source.Proper)

include proper

theorem value_proper : f.value.Proper :=
  proper.operands _ folds.mem_definition f.value mem_cons_self

theorem count_eq :
    f.reader.uses.count f.l = 1 ∧ (f.reader.inputs.flatMap Expr.uses).count f.l = 1 ∧
      f.l ∉ f.before.flatMap uses ∧ f.l ∉ (assign f.l f.value).uses ∧
      f.l ∉ f.between.flatMap uses ∧ f.l ∉ f.after.flatMap uses := by
  have inputs := ((proper.operands _ folds.mem_reader).inputs_uses).count_le f.l
  have read := count_pos_iff.mpr folds.evaluates
  have once := folds.once
  rw [folds.source_eq] at once
  simp only [flatMap_append, flatMap_cons, count_append] at once
  refine ⟨by omega, by omega, ?_, ?_, ?_, ?_⟩ <;>
    exact count_eq_zero.mp (by omega)

/-- No statement but the reader reads the local. -/
theorem unread (found : source.actions[position]? = some a) (other : position ≠ f.place + 1 + f.gap) :
    f.l ∉ a.uses := by
  obtain ⟨-, -, before, own, between, after⟩ := folds.count_eq proper
  have absent : ∀ {as : List Action}, f.l ∉ as.flatMap uses → a ∈ as → f.l ∉ a.uses :=
    fun none member read => none (mem_flatMap.mpr ⟨a, member, read⟩)
  rcases Nat.lt_trichotomy position f.place with less | rfl | greater
  · rw [folds.source_eq, getElem?_append_left less] at found
    exact absent before (mem_of_getElem? found)
  · cases found.symm.trans folds.takes.get_place
    exact own
  · obtain ⟨j, rfl⟩ := Nat.exists_eq_add_of_lt greater
    rcases Nat.lt_or_ge j f.gap with inside | behind
    · obtain ⟨b, member, here⟩ := folds.takes.get_between inside
      rw [Nat.add_right_comm] at here
      cases found.symm.trans here
      exact absent between member
    · obtain ⟨more, rfl⟩ := Nat.exists_eq_add_of_lt (show f.gap < j by omega)
      rw [folds.source_eq, Nat.add_assoc, Fold.place, getElem?_length_add, getElem?_cons_succ,
        Nat.add_assoc, Fold.gap, getElem?_length_add, getElem?_cons_succ] at found
      exact absent after (mem_of_getElem? found)

theorem keepsPlace : f.reader.KeepsPlace f.l := by
  rintro place stored same rfl
  obtain ⟨all, inputs, -⟩ := folds.count_eq proper
  rw [Action.uses_eq, same] at all
  rw [same] at inputs
  have one : (Expr.read f.l).uses.count f.l = 1 := count_singleton_self
  have none : (Expr.read f.l).args = [] := rfl
  simp only [Action.parts, Action.inputs, none, nil_append, flatMap_cons, flatMap_nil,
    append_nil, count_append, one] at all inputs
  omega

theorem proper_target : target.Proper := by
  have value := folds.value_proper proper
  have received := proper.received _ _ folds.mem_definition
  refine ⟨?_, ?_, ?_⟩
  · intro a member
    obtain ⟨position, found⟩ := mem_iff_getElem?.mp member
    rcases folds.takes.get_cases found with ⟨-, same⟩ | ⟨-, rfl⟩
    · exact proper.operands a (mem_of_getElem? same)
    · exact (proper.operands _ folds.mem_reader).replaceLocal f.l value
  · intro x e member
    obtain ⟨position, found⟩ := mem_iff_getElem?.mp member
    rcases folds.takes.get_cases found with ⟨-, same⟩ | ⟨-, changed⟩
    · exact proper.names x e (mem_of_getElem? same)
    · have reads := folds.reads
      generalize f.reader = a at changed reads
      cases a with
      | identity => cases reads
      | _ => cases changed
  · intro x e member
    obtain ⟨position, found⟩ := mem_iff_getElem?.mp member
    rcases folds.takes.get_cases found with ⟨-, same⟩ | ⟨-, changed⟩
    · exact proper.received x e (mem_of_getElem? same)
    · have memberReader := folds.mem_reader
      generalize f.reader = a at changed memberReader
      cases a with
      | assign y original =>
        have parts := congrArg parts changed
        rw [parts_replaceLocal] at parts
        obtain ⟨rfl, -⟩ := List.cons.inj parts
        rw [Bool.eq_false_iff]
        intro here
        rcases (proper.operands _ memberReader original mem_cons_self).receives_replaceLocal here
          with own | written
        · rw [proper.received y original memberReader] at own
          cases own
        · rw [received] at written
          cases written
      | _ => cases changed

theorem assigns_target {x : LocalId} (other : x ≠ f.l)
    (always : (Flow.ofMethod source).Assigns (f.origin position) x) :
    (Flow.ofMethod target).Assigns position x := by
  intro assigned path
  obtain ⟨way, entered, trail⟩ := exists_trail path
  obtain ⟨earlier, _, lifted, sub, -⟩ := folds.lift proper trail
  rcases mem_cons.mp (sub (always earlier lifted.path)) with own | member
  · exact absurd own other
  · exact member

theorem singleAssignment_target (single : source.SingleAssignment) : target.SingleAssignment := by
  refine ⟨?_, ?_, ?_⟩
  · intro position other a b x first second defines definesOther
    obtain ⟨original, here, -, -, -, -, -, -, same⟩ := folds.exists_get first
    obtain ⟨originalOther, there, -, -, -, -, -, -, sameOther⟩ := folds.exists_get second
    have equal := single.once _ _ _ _ x here there (same.trans defines)
      (sameOther.trans definesOther)
    rcases Nat.lt_trichotomy position other with less | same | greater
    · have moved : f.origin position < f.origin other := Fold.origin_lt_origin.mpr less
      omega
    · exact same
    · have moved : f.origin other < f.origin position := Fold.origin_lt_origin.mpr greater
      omega
  · intro position b x found read
    rcases folds.takes.get_cases found with ⟨other, same⟩ | ⟨rfl, rfl⟩
    · refine folds.assigns_target proper ?_ (single.reads _ b x same read)
      rintro rfl
      refine folds.unread proper same ?_ read
      intro reader
      refine other ?_
      unfold Fold.origin at reader
      split at reader <;> omega
    · have origin : f.origin (f.place + f.gap) = f.place + 1 + f.gap := by
        rw [Fold.origin_of_ge (by omega), Nat.add_right_comm]
      rw [(proper.operands _ folds.mem_reader).uses_replaceLocal, mem_flatMap] at read
      obtain ⟨y, readsY, here⟩ := read
      split at here
      next own =>
        -- Read by the value: assigned in front of the definition.
        have absent := folds.unread proper folds.takes.get_place (by omega)
        have usesValue : x ∈ (assign f.l f.value).uses := by
          rw [uses_eq]
          simpa [parts] using here
        refine folds.assigns_target proper (fun same => absent (same ▸ usesValue)) ?_
        rw [origin]
        intro assigned path
        obtain ⟨way, entered, trail⟩ := exists_trail path
        obtain ⟨earlier, begun, sub⟩ := folds.walk_back trail (by omega) (Nat.le_refl _)
        exact sub (single.reads _ _ x folds.takes.get_place usesValue earlier begun.path)
      next different =>
        cases mem_singleton.mp here
        refine folds.assigns_target proper different ?_
        rw [origin]
        exact single.reads _ _ _ folds.takes.get_reader readsY
  · intro position target_ args arg assigned entered way found trail picks
    rcases folds.takes.get_cases found with ⟨-, same⟩ | ⟨-, changed⟩
    · obtain ⟨earlier, earlierEntered, lifted, -, sub⟩ := folds.lift proper trail
      have member := single.joins _ target_ args arg earlier earlierEntered way same lifted picks
      rcases mem_cons.mp (sub member) with own | kept
      · exact absurd own (folds.unjoined _ (mem_of_getElem? same) arg
          (mem_of_find?_eq_some picks))
      · exact kept
    · have phi : (f.reader.replaceLocal f.l f.value).isPhi = true := by
        rw [← changed]
        rfl
      rw [isPhi_replaceLocal, (plain_of_isReader folds.reads).2] at phi
      cases phi

end

end Folds

end DexLift.Ir
