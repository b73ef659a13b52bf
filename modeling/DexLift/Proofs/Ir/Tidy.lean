import DexLift.Ir.Method
import DexLift.Proofs.Tables
import Mathlib.Data.List.Nodup

/-!
# Bodies that are plain lists

A method is tidy when its body is all there is to say about the links: no chain
is kept beside it, no statement is linked twice, and the table of labels names
exactly the label statements of the body. Every edit that links a new statement
next to a linked one, takes statements out or changes what they do keeps a method
tidy, and its effect on the body is that of the same edit on a list.
-/

namespace DexLift.Ir

open List

variable {a : Action} {m n : Method} {id place : StmtId} {before after : List StmtId} {index : Nat}

theorem Action.label?_eq_some {a : Action} {l : Label} : a.label? = some l ↔ a = .label l := by
  cases a <;> simp [Action.label?]

theorem lt_of_get {α : Type} {xs : List α} {i : Nat} {a : α} (here : xs[i]? = some a) :
    i < xs.length := (List.getElem?_eq_some_iff.mp here).1

namespace Method

/-- The body is a list without repetitions of statements that were made, and the table of labels is
the inverse of placing labels. -/
structure Tidy (m : Method) : Prop where
  plain : m.chain = none
  nodup : m.order.toList.Nodup
  made : ∀ id ∈ m.order.toList, id < m.stmts.size
  placed_of_label : ∀ id ∈ m.order.toList, ∀ l, m.action id = .label l → m.placedAt? l = some id
  label_of_placed : ∀ l id, m.placedAt? l = some id → id ∈ m.order.toList ∧ m.action id = .label l

/-! ## What the small edits leave alone -/

section

variable (m : Method) (type t : Ty) (s : Stmt) (id : StmtId) (l : LocalId) (a : Action)

@[simp] theorem newLocal_stmts : (m.newLocal type).2.stmts = m.stmts := rfl
@[simp] theorem newLocal_order : (m.newLocal type).2.order = m.order := rfl
@[simp] theorem newLocal_placed : (m.newLocal type).2.placed = m.placed := rfl
@[simp] theorem newLocal_traps : (m.newLocal type).2.traps = m.traps := rfl
@[simp] theorem newLocal_fst : (m.newLocal type).1 = m.locals.size := rfl
@[simp] theorem newLocal_size : (m.newLocal type).2.locals.size = m.locals.size + 1 := by
  simp [newLocal]

@[simp] theorem newStmt_locals : (m.newStmt s).2.locals = m.locals := rfl
@[simp] theorem newStmt_order : (m.newStmt s).2.order = m.order := rfl
@[simp] theorem newStmt_fst : (m.newStmt s).1 = m.stmts.size := rfl
@[simp] theorem newStmt_size : (m.newStmt s).2.stmts.size = m.stmts.size + 1 := by
  simp [newStmt]

@[simp] theorem newLabel_stmts : m.newLabel.2.stmts = m.stmts := rfl
@[simp] theorem newLabel_locals : m.newLabel.2.locals = m.locals := rfl
@[simp] theorem newLabel_order : m.newLabel.2.order = m.order := rfl
@[simp] theorem newLabel_fst : m.newLabel.1 = .number m.placed.size := rfl
@[simp] theorem newLabel_size : m.newLabel.2.placed.size = m.placed.size + 1 := by
  simp [newLabel]

@[simp] theorem setAction_order : (m.setAction id a).order = m.order := rfl
@[simp] theorem setAction_locals : (m.setAction id a).locals = m.locals := rfl
@[simp] theorem setAction_placed : (m.setAction id a).placed = m.placed := rfl
@[simp] theorem setAction_traps : (m.setAction id a).traps = m.traps := rfl
@[simp] theorem setAction_size : (m.setAction id a).stmts.size = m.stmts.size := by
  simp [setAction]

@[simp] theorem setLocalType_stmts : (m.setLocalType l t).stmts = m.stmts := rfl
@[simp] theorem setLocalType_order : (m.setLocalType l t).order = m.order := rfl
@[simp] theorem setLocalType_placed : (m.setLocalType l t).placed = m.placed := rfl
@[simp] theorem setLocalType_traps : (m.setLocalType l t).traps = m.traps := rfl
@[simp] theorem setLocalType_size : (m.setLocalType l t).locals.size = m.locals.size := by
  simp [setLocalType]

end

theorem action_congr (same : m.stmts = n.stmts) (id : StmtId) : m.action id = n.action id := by
  simp only [action, stmt, same]

theorem placedAt_congr (same : m.placed = n.placed) (l : Label) :
    m.placedAt? l = n.placedAt? l := by
  cases l <;> simp only [placedAt?, same]

theorem action_newStmt_of_lt (old : id < m.stmts.size) (s : Stmt) :
    (m.newStmt s).2.action id = m.action id := by
  simp [action, stmt, newStmt, Array.getElem?_push, Nat.ne_of_lt old]

@[simp] theorem action_newStmt_self (m : Method) (s : Stmt) :
    (m.newStmt s).2.action m.stmts.size = s.action := by
  simp [action, stmt, newStmt]

theorem action_setAction (m : Method) (id other : StmtId) (a : Action) :
    (m.setAction id a).action other =
      if other = id ∧ other < m.stmts.size then a else m.action other := by
  simp only [action, stmt, setAction, getD_modify]
  grind

theorem stmt_setAction (made : id < m.stmts.size) (a : Action) (other : StmtId) :
    (m.setAction id a).stmt other =
      if other = id then { m.stmt other with action := a } else m.stmt other := by
  simp only [stmt, setAction, getD_modify, made, and_true]

theorem action_of_size_le (outside : m.stmts.size ≤ id) : m.action id = .nop := by
  simp [action, stmt, outside]

theorem placedAt_newLabel (m : Method) (l : Label) : m.newLabel.2.placedAt? l = m.placedAt? l := by
  cases l with
  | nowhere => rfl
  | number index =>
    simp only [placedAt?, newLabel, Array.getElem?_push]
    by_cases new : index = m.placed.size
    · simp [new]
    · simp [new]

/-! ## Noting and forgetting places -/

theorem notePlace_with (m : Method) (id : StmtId) :
    ∃ placed, placed.size = m.placed.size ∧ m.notePlace id = { m with placed } := by
  unfold notePlace
  split
  · exact ⟨_, by simp, rfl⟩
  · exact ⟨m.placed, rfl, rfl⟩

theorem notePlace_of_not_label (other : (m.action id).label? = none) : m.notePlace id = m := by
  unfold notePlace
  split
  next index found => rw [found] at other; cases other
  · rfl

theorem placedAt_notePlace {m : Method} {id : StmtId} {index : Nat}
    (here : m.action id = .label (.number index)) (known : index < m.placed.size) (l : Label) :
    (m.notePlace id).placedAt? l = if l = .number index then some id else m.placedAt? l := by
  cases l with
  | nowhere => simp [placedAt?]
  | number k =>
    simp only [notePlace, here, placedAt?, Array.getElem?_setIfInBounds, known]
    by_cases same : k = index
    · simp [same]
    · simp [same, Ne.symm same]

theorem forgetPlace_with (m : Method) (id : StmtId) :
    ∃ placed, placed.size = m.placed.size ∧ m.forgetPlace id = { m with placed } := by
  unfold forgetPlace
  split
  · split
    · exact ⟨_, by simp, rfl⟩
    · exact ⟨m.placed, rfl, rfl⟩
  · exact ⟨m.placed, rfl, rfl⟩

theorem forgetPlace_of_not_label (other : (m.action id).label? = none) : m.forgetPlace id = m := by
  unfold forgetPlace
  split
  next index found => rw [found] at other; cases other
  · rfl

theorem placedAt_forgetPlace (named : ∀ l id, m.placedAt? l = some id → m.action id = .label l)
    (id : StmtId) (l : Label) (place : StmtId) :
    (m.forgetPlace id).placedAt? l = some place ↔ m.placedAt? l = some place ∧ place ≠ id := by
  cases l with
  | nowhere => simp [placedAt?]
  | number k =>
    unfold forgetPlace
    split
    next index found =>
      split
      next here =>
        have inside : index < m.placed.size := by
          by_contra outside
          simp [outside] at here
        by_cases same : k = index
        · subst same
          simp only [placedAt?, Array.getElem?_setIfInBounds, if_true, inside]
          simp [here, eq_comm]
        · simp only [placedAt?, Array.getElem?_setIfInBounds, if_neg (Ne.symm same)]
          refine ⟨fun placed => ⟨placed, ?_⟩, And.left⟩
          rintro rfl
          have label := named (.number k) place placed
          rw [found] at label
          cases label
          exact same rfl
      next elsewhere =>
        refine ⟨fun placed => ⟨placed, ?_⟩, And.left⟩
        rintro rfl
        have label := named (.number k) place placed
        rw [found] at label
        cases label
        exact elsewhere placed
    next notLabel =>
      refine ⟨fun placed => ⟨placed, ?_⟩, And.left⟩
      rintro rfl
      exact notLabel k (named (.number k) place placed)

theorem forgetAll_with (ids : List StmtId) (m : Method)
    (named : ∀ l id, m.placedAt? l = some id → m.action id = .label l) :
    ∃ placed, placed.size = m.placed.size ∧ ids.foldl forgetPlace m = { m with placed } ∧
      ∀ l place, (ids.foldl forgetPlace m).placedAt? l = some place ↔
        m.placedAt? l = some place ∧ place ∉ ids := by
  induction ids generalizing m with
  | nil => exact ⟨m.placed, rfl, rfl, fun l place => by simp⟩
  | cons first rest ih =>
    obtain ⟨placed, size, equal⟩ := forgetPlace_with m first
    have stillNamed : ∀ l id, (m.forgetPlace first).placedAt? l = some id →
        (m.forgetPlace first).action id = .label l := by
      intro l id found
      have before := ((placedAt_forgetPlace named first l id).mp found).1
      rw [equal]
      exact named l id before
    obtain ⟨placed', size', equal', places⟩ := ih _ stillNamed
    refine ⟨placed', ?_, ?_, ?_⟩
    · rwa [size', equal]
    · rw [foldl_cons, equal', equal]
    · intro l place
      rw [foldl_cons, places, placedAt_forgetPlace named, mem_cons, not_or, and_assoc]

/-! ## Edits of a tidy body -/

section

variable (tidy : m.Tidy)

include tidy

theorem Tidy.named (l : Label) (id : StmtId) (placed : m.placedAt? l = some id) :
    m.action id = .label l :=
  (tidy.label_of_placed l id placed).2

theorem Tidy.label_unique {first second : StmtId} {l : Label}
    (inFirst : first ∈ m.order.toList) (inSecond : second ∈ m.order.toList)
    (isFirst : m.action first = .label l) (isSecond : m.action second = .label l) :
    first = second := by
  have placed := tidy.placed_of_label first inFirst l isFirst
  have again := tidy.placed_of_label second inSecond l isSecond
  exact Option.some.inj (placed.symm.trans again)

theorem Tidy.of_same_labels (plain : n.chain = none) (nodup : n.order.toList.Nodup)
    (made : ∀ id ∈ n.order.toList, id < n.stmts.size)
    (labels : ∀ id l, id ∈ n.order.toList ∧ n.action id = .label l ↔
      id ∈ m.order.toList ∧ m.action id = .label l)
    (places : ∀ l, n.placedAt? l = m.placedAt? l) : n.Tidy where
  plain := plain
  nodup := nodup
  made := made
  placed_of_label := by
    intro id inside l label
    obtain ⟨inside', label'⟩ := (labels id l).mp ⟨inside, label⟩
    rw [places]
    exact tidy.placed_of_label id inside' l label'
  label_of_placed := by
    intro l id placed
    rw [places] at placed
    exact (labels id l).mpr (tidy.label_of_placed l id placed)

theorem Tidy.newLocal (type : Ty) : (m.newLocal type).2.Tidy :=
  tidy.of_same_labels tidy.plain tidy.nodup tidy.made (fun _ _ => Iff.rfl) fun _ => rfl

theorem Tidy.newStmt (s : Stmt) : (m.newStmt s).2.Tidy := by
  refine tidy.of_same_labels tidy.plain tidy.nodup ?_ ?_ fun _ => rfl
  · intro id inside
    rw [newStmt_size]
    exact Nat.lt_succ_of_lt (tidy.made id inside)
  · intro id l
    constructor
    · rintro ⟨inside, label⟩
      rw [action_newStmt_of_lt (tidy.made id inside)] at label
      exact ⟨inside, label⟩
    · rintro ⟨inside, label⟩
      refine ⟨inside, ?_⟩
      rwa [action_newStmt_of_lt (tidy.made id inside)]

theorem Tidy.newLabel : m.newLabel.2.Tidy :=
  tidy.of_same_labels tidy.plain tidy.nodup tidy.made (fun _ _ => Iff.rfl) (placedAt_newLabel m)

theorem Tidy.setAction (old : (m.action id).label? = none) (new : a.label? = none) :
    (m.setAction id a).Tidy := by
  refine tidy.of_same_labels tidy.plain tidy.nodup ?_ ?_ fun _ => rfl
  · intro other inside
    rw [setAction_size]
    exact tidy.made other inside
  · intro other l
    rw [action_setAction]
    split
    next here =>
      have notOld : ¬ m.action other = .label l := by
        intro label
        rw [← here.1, label] at old
        cases old
      have notNew : ¬ a = .label l := by
        rintro rfl
        cases new
      simp [notOld, notNew]
    · rfl

end

theorem append_plain (plain : m.chain = none) (id : StmtId) :
    m.append id = { m with order := m.order.push id }.notePlace id := by
  unfold append
  rw [if_pos (by simp [plain])]

theorem append_with (plain : m.chain = none) (id : StmtId) :
    ∃ placed, placed.size = m.placed.size ∧
      m.append id = { m with order := m.order.push id, placed } := by
  rw [append_plain plain]
  exact notePlace_with { m with order := m.order.push id } id

theorem append_of_not_label (plain : m.chain = none) (other : (m.action id).label? = none) :
    m.append id = { m with order := m.order.push id } := by
  rw [append_plain plain]
  exact notePlace_of_not_label other

theorem nodup_insert (nodup : (before ++ after).Nodup) (new : id ∉ before ++ after) :
    (before ++ id :: after).Nodup :=
  nodup_middle.mpr (nodup_cons.mpr ⟨new, nodup⟩)

theorem Tidy.insert_other (tidy : m.Tidy) (split : m.order.toList = before ++ after)
    (inserted : n.order.toList = before ++ id :: after) (plain : n.chain = none)
    (same : n.stmts = m.stmts) (places : n.placed = m.placed) (new : id ∉ m.order.toList)
    (known : id < m.stmts.size) (other : (m.action id).label? = none) : n.Tidy := by
  refine tidy.of_same_labels plain ?_ ?_ ?_ (placedAt_congr places)
  · rw [inserted]
    exact nodup_insert (split ▸ tidy.nodup) (split ▸ new)
  · intro found inside
    rw [same]
    rcases (by simpa [inserted] using inside : found ∈ before ∨ found = id ∨ found ∈ after)
      with early | rfl | late
    · exact tidy.made found (by simp [split, early])
    · exact known
    · exact tidy.made found (by simp [split, late])
  · intro found l
    rw [action_congr same, inserted, split]
    constructor
    · rintro ⟨inside, label⟩
      have different : found ≠ id := by
        rintro rfl
        rw [label] at other
        cases other
      exact ⟨by simpa [different] using inside, label⟩
    · rintro ⟨inside, label⟩
      refine ⟨?_, label⟩
      rcases mem_append.mp inside with early | late
      · simp [early]
      · simp [late]

theorem Tidy.append_other (tidy : m.Tidy) (new : id ∉ m.order.toList) (known : id < m.stmts.size)
    (other : (m.action id).label? = none) : (m.append id).Tidy := by
  rw [append_of_not_label tidy.plain other]
  have split : m.order.toList = m.order.toList ++ [] := by simp
  exact tidy.insert_other split (by simp) tidy.plain rfl rfl new known other

theorem idxOf_middle (nodup : (before ++ place :: after).Nodup) :
    (before ++ place :: after).toArray.idxOf? place = some before.length := by
  have absent : place ∉ before := by
    intro inside
    exact (nodup_append.mp nodup).2.2 place inside place (by simp) rfl
  rw [idxOf?_toArray, idxOf?_eq_some_iff]
  refine ⟨by simp, by simp, ?_⟩
  intro j early
  rw [getElem_append_left early]
  intro same
  exact absent (same ▸ getElem_mem early)

theorem insertIdx_middle (before after : List StmtId) (id : StmtId) :
    (before ++ after).toArray.insertIdxIfInBounds before.length id =
      (before ++ id :: after).toArray := by grind

section

variable (tidy : m.Tidy) (split : m.order.toList = before ++ place :: after)

include tidy split

theorem insertBefore_eq (id : StmtId) :
    m.insertBefore place id =
      notePlace { m with order := (before ++ id :: place :: after).toArray } id := by
  have array : m.order = (before ++ place :: after).toArray := by rw [← split]
  have position : m.order.idxOf? place = some before.length := by
    rw [array]
    exact idxOf_middle (split ▸ tidy.nodup)
  have inserted : m.insertAt before.length id =
      { m with order := (before ++ id :: place :: after).toArray } := by
    rw [insertAt, array, insertIdx_middle]
  unfold insertBefore
  simp only [tidy.plain, position, inserted]

theorem insertBefore_plain (other : (m.action id).label? = none) :
    m.insertBefore place id = { m with order := (before ++ id :: place :: after).toArray } := by
  rw [insertBefore_eq tidy split]
  exact notePlace_of_not_label other

theorem insertAfter_eq (id : StmtId) :
    m.insertAfter place id =
      notePlace { m with order := (before ++ place :: id :: after).toArray } id := by
  have array : m.order = (before ++ place :: after).toArray := by rw [← split]
  have position : m.order.idxOf? place = some before.length := by
    rw [array]
    exact idxOf_middle (split ▸ tidy.nodup)
  have inserted : m.insertAt (before.length + 1) id =
      { m with order := (before ++ place :: id :: after).toArray } := by
    have behind := insertIdx_middle (before ++ [place]) after id
    simp only [append_assoc, singleton_append, length_append, length_cons,
      length_nil, Nat.zero_add] at behind
    rw [insertAt, array, behind]
  unfold insertAfter
  simp only [tidy.plain, position, inserted]

theorem insertAfter_plain (other : (m.action id).label? = none) :
    m.insertAfter place id = { m with order := (before ++ place :: id :: after).toArray } := by
  rw [insertAfter_eq tidy split]
  exact notePlace_of_not_label other

end

theorem Tidy.insert_label (tidy : m.Tidy) (split : m.order.toList = before ++ after)
    (new : id ∉ m.order.toList) (made : id < m.stmts.size)
    (here : m.action id = .label (.number index)) (known : index < m.placed.size)
    (unplaced : m.placedAt? (.number index) = none) :
    (notePlace { m with order := (before ++ id :: after).toArray } id).Tidy := by
  have places : ∀ l, (notePlace { m with order := (before ++ id :: after).toArray } id).placedAt? l =
      if l = .number index then some id else m.placedAt? l := placedAt_notePlace here known
  obtain ⟨placed, size, equal⟩ := notePlace_with { m with order := (before ++ id :: after).toArray } id
  rw [equal] at places ⊢
  have inside : ∀ found ∈ before ++ id :: after, found = id ∨ found ∈ m.order.toList := by grind
  have outside : ∀ found ∈ m.order.toList, found ∈ before ++ id :: after := by grind
  refine ⟨tidy.plain, nodup_insert (split ▸ tidy.nodup) (split ▸ new), ?_, ?_, ?_⟩
  · intro found member
    rcases inside found member with rfl | old
    · exact made
    · exact tidy.made found old
  · intro found member l label
    rw [places]
    rcases inside found member with rfl | old
    · obtain rfl := Action.label.inj (here.symm.trans label)
      exact if_pos rfl
    · have before := tidy.placed_of_label found old l label
      have different : l ≠ .number index := by
        rintro rfl
        rw [unplaced] at before
        cases before
      rw [if_neg different, before]
  · intro l found placedThere
    rw [places] at placedThere
    split at placedThere
    next same =>
      cases placedThere
      exact ⟨mem_append_right _ mem_cons_self, same ▸ here⟩
    · obtain ⟨member, label⟩ := tidy.label_of_placed l found placedThere
      exact ⟨outside found member, label⟩

theorem Tidy.append_label (tidy : m.Tidy) (new : id ∉ m.order.toList) (made : id < m.stmts.size)
    (here : m.action id = .label (.number index)) (known : index < m.placed.size)
    (unplaced : m.placedAt? (.number index) = none) : (m.append id).Tidy := by
  have last : m.order.push id = (m.order.toList ++ id :: []).toArray := by
    rw [← Array.toList_push]
  rw [append_plain tidy.plain, last]
  exact tidy.insert_label (append_nil _).symm new made here known unplaced

theorem removeWhere_with (tidy : m.Tidy) (test : StmtId → Bool) :
    ∃ placed, placed.size = m.placed.size ∧
      m.removeWhere test = { m with order := m.order.filter fun id => !test id, placed } ∧
      ∀ l place, (m.removeWhere test).placedAt? l = some place ↔
        m.placedAt? l = some place ∧ test place = false := by
  obtain ⟨placed, size, equal, places⟩ := forgetAll_with (m.order.filter test).toList
    { m with order := m.order.filter fun id => !test id } tidy.named
  have unfolded : m.removeWhere test = (m.order.filter test).toList.foldl forgetPlace
      { m with order := m.order.filter fun id => !test id } := by
    unfold removeWhere
    rw [if_pos (by simp [tidy.plain]), Array.foldl_toList]
  refine ⟨placed, size, unfolded.trans equal, ?_⟩
  intro l place
  rw [unfolded, places]
  refine and_congr_right ?_
  intro found
  have inside := (tidy.label_of_placed l place found).1
  cases fails : test place <;> simp_all

theorem removeWhere_of_not_label (plain : m.chain = none) {test : StmtId → Bool}
    (others : ∀ id ∈ m.order.toList, test id = true → (m.action id).label? = none) :
    m.removeWhere test = { m with order := m.order.filter fun id => !test id } := by
  have forgotten : ∀ (ids : List StmtId) (n : Method),
      (∀ id ∈ ids, (n.action id).label? = none) → ids.foldl forgetPlace n = n := by
    intro ids n notLabels
    induction ids with
    | nil => rfl
    | cons first rest ih =>
      rw [foldl_cons, forgetPlace_of_not_label (notLabels first mem_cons_self)]
      exact ih fun id later => notLabels id (.tail _ later)
  unfold removeWhere
  rw [if_pos (by rw [plain]; rfl), ← Array.foldl_toList]
  refine forgotten _ { m with order := m.order.filter fun id => !test id } ?_
  intro id inside
  rw [Array.toList_filter] at inside
  obtain ⟨linked, chosen⟩ := mem_filter.mp inside
  exact others id linked chosen

theorem Tidy.removeWhere (tidy : m.Tidy) (test : StmtId → Bool) : (m.removeWhere test).Tidy := by
  obtain ⟨placed, size, equal, places⟩ := removeWhere_with tidy test
  have order : (m.removeWhere test).order.toList =
      m.order.toList.filter fun id => !test id := by
    rw [equal, Array.toList_filter]
  have actions : ∀ id, (m.removeWhere test).action id = m.action id := by
    intro id; rw [equal]; rfl
  refine ⟨by rw [equal]; exact tidy.plain, ?_, ?_, ?_, ?_⟩
  · rw [order]
    exact tidy.nodup.filter _
  · intro id inside
    rw [order] at inside
    have bound : (m.removeWhere test).stmts.size = m.stmts.size := by rw [equal]
    rw [bound]
    exact tidy.made id (mem_filter.mp inside).1
  · intro id inside l label
    rw [order] at inside
    rw [actions] at label
    obtain ⟨before, stays⟩ := mem_filter.mp inside
    exact (places l id).mpr ⟨tidy.placed_of_label id before l label, by simpa using stays⟩
  · intro l id placedThere
    obtain ⟨before, stays⟩ := (places l id).mp placedThere
    obtain ⟨inside, label⟩ := tidy.label_of_placed l id before
    rw [order, actions]
    exact ⟨mem_filter.mpr ⟨inside, by simp [stays]⟩, label⟩

/-- One method is another with the statements of a list linked. -/
structure Relinked (m n : Method) (order : List StmtId) : Prop where
  tidy : n.Tidy
  order_eq : n.order.toList = order
  stmts : n.stmts = m.stmts
  locals : n.locals = m.locals
  traps : n.traps = m.traps

theorem Relinked.actions_eq {order : List StmtId} (relinked : m.Relinked n order) :
    n.actions = order.map m.action := by
  rw [actions, relinked.order_eq]
  exact map_congr_left fun id _ => action_congr relinked.stmts id

theorem Relinked.trans {k : Method} {first second : List StmtId} (one : m.Relinked n first)
    (other : n.Relinked k second) : m.Relinked k second :=
  ⟨other.tidy, other.order_eq, other.stmts.trans one.stmts, other.locals.trans one.locals,
    other.traps.trans one.traps⟩

theorem filter_middle (nodup : (before ++ id :: after).Nodup) :
    (before ++ id :: after).filter (fun other => !(other == id)) = before ++ after := by
  have absent := (nodup_cons.mp (nodup_middle.mp nodup)).1
  have others : ∀ other ∈ before ++ after, (!(other == id)) = true := by grind
  calc (before ++ id :: after).filter (fun other => !(other == id))
      = (before ++ after).filter (fun other => !(other == id)) := by
        rw [filter_append, filter_cons_of_neg (by simp), filter_append]
    _ = before ++ after := filter_eq_self.mpr others

theorem Tidy.remove (tidy : m.Tidy) (split : m.order.toList = before ++ id :: after) :
    m.Relinked (m.remove id) (before ++ after) := by
  have unfolded : m.remove id = m.removeWhere (· == id) := by
    unfold Method.remove
    rw [tidy.plain]
  obtain ⟨placed, -, equal, -⟩ := removeWhere_with tidy (· == id)
  refine ⟨unfolded ▸ tidy.removeWhere _, ?_, ?_, ?_, ?_⟩
  · rw [unfolded, equal, Array.toList_filter, split]
    exact filter_middle (split ▸ tidy.nodup)
  all_goals rw [unfolded, equal]

theorem Tidy.replace (tidy : m.Tidy) {old new : StmtId}
    (split : m.order.toList = before ++ old :: after) (apart : new ∉ m.order.toList)
    (known : new < m.stmts.size) (other : (m.action new).label? = none) :
    m.Relinked (m.replace old new) (before ++ new :: after) := by
  have inserted := insertBefore_plain tidy split other
  have between : (m.insertBefore old new).order.toList = (before ++ [new]) ++ old :: after := by
    simp [inserted]
  have tidyBetween : (m.insertBefore old new).Tidy := by
    rw [inserted]
    exact tidy.insert_other split rfl tidy.plain rfl rfl apart known other
  have linked : m.Relinked (m.insertBefore old new) ((before ++ [new]) ++ old :: after) :=
    ⟨tidyBetween, between, by rw [inserted], by rw [inserted], by rw [inserted]⟩
  have removed := linked.trans (tidyBetween.remove between)
  rwa [append_assoc, singleton_append] at removed

theorem mapList_with (change : Action → Action) (ids : List StmtId) (m : Method)
    (nodup : ids.Nodup) (made : ∀ id ∈ ids, id < m.stmts.size) :
    ∃ stmts, stmts.size = m.stmts.size ∧
      ids.foldl (fun m id => m.setAction id (change (m.action id))) m = { m with stmts } ∧
      ∀ id, (ids.foldl (fun m id => m.setAction id (change (m.action id))) m).action id =
        if id ∈ ids then change (m.action id) else m.action id := by
  induction ids generalizing m with
  | nil => exact ⟨m.stmts, rfl, rfl, fun id => by simp⟩
  | cons first rest ih =>
    obtain ⟨absent, restNodup⟩ := nodup_cons.mp nodup
    obtain ⟨stmts, size, equal, actions⟩ :=
      ih (m.setAction first (change (m.action first))) restNodup
        (fun id inside => by simpa using made id (.tail _ inside))
    refine ⟨stmts, by simpa using size, ?_, ?_⟩
    · rw [foldl_cons, equal]
      rfl
    · intro id
      rw [foldl_cons, actions, action_setAction]
      by_cases same : id = first
      · subst same
        simp [absent, made id (by simp)]
      · simp [same]

theorem mapActions_with (tidy : m.Tidy) (change : Action → Action) :
    ∃ stmts, stmts.size = m.stmts.size ∧ m.mapActions change = { m with stmts } ∧
      ∀ id, (m.mapActions change).action id =
        if id ∈ m.order.toList then change (m.action id) else m.action id := by
  have listed := mapList_with change m.order.toList m tidy.nodup tidy.made
  simpa only [mapActions, Array.foldl_toList] using listed

theorem Tidy.mapActions (tidy : m.Tidy) {change : Action → Action}
    (labels : ∀ a, (change a).label? = a.label?) : (m.mapActions change).Tidy := by
  obtain ⟨stmts, size, equal, each⟩ := mapActions_with tidy change
  have order : (m.mapActions change).order = m.order := by rw [equal]
  refine tidy.of_same_labels (by rw [equal]; exact tidy.plain) (by rw [order]; exact tidy.nodup)
    ?_ ?_ ?_
  · intro id inside
    have bound : (m.mapActions change).stmts.size = m.stmts.size := by rw [equal]; exact size
    rw [order] at inside
    rw [bound]
    exact tidy.made id inside
  · intro id l
    rw [order]
    refine and_congr_right ?_
    intro inside
    rw [each, if_pos inside, ← Action.label?_eq_some, ← Action.label?_eq_some, labels]
  · intro l
    rw [equal]
    cases l <;> rfl

end Method

end DexLift.Ir

/-!
# Edits that change nothing

Taking out no statement, writing a statement where it stands already and changing every
statement to itself leave the same method: not one with the same body, but the very same
record. A pass that finds nothing to do is put together from such edits.
-/

namespace DexLift.Ir

open List

namespace Expr

theorem mapNodes_self {change : Expr → Expr} (same : ∀ e, change e = e) (e : Expr) :
    e.mapNodes change = e := by
  refine Expr.rec (motive_1 := fun e => e.mapNodes change = e)
    (motive_2 := fun es => mapNodesOf change es = es) ?_ rfl ?_ e
  · intro head args inner
    by_cases missing : head = .missing
    · rw [missing, mapNodes]
    · rwa [mapNodes, inner, same]
  · intro first rest head tail
    rw [mapNodesOf, head, tail]

end Expr

theorem Action.mapOperands_self {change : Expr → Expr} (same : ∀ e, change e = e) (a : Action) :
    a.mapOperands change = a := by
  cases a with
  | branch cond left right target => cases right <;> simp [mapOperands, same]
  | «return» value => cases value <;> simp [mapOperands, same]
  | _ => simp [mapOperands, same]

namespace Method

variable {m : Method}

theorem removeWhere_none (plain : m.chain = none) {test : StmtId → Bool}
    (none : ∀ id ∈ m.order.toList, test id = false) : m.removeWhere test = m := by
  have filtered : (m.order.filter fun id => !test id) = m.order := by
    refine Array.toList_inj.mp ?_
    rw [Array.toList_filter]
    exact filter_eq_self.mpr fun id member => by rw [none id member]; rfl
  rw [removeWhere_of_not_label plain, filtered]
  intro id member goes
  rw [none id member] at goes
  cases goes

theorem setAction_self (m : Method) (id : StmtId) : m.setAction id (m.action id) = m := by
  have stmts : m.stmts.modify id (fun s => { s with action := m.action id }) = m.stmts := by
    refine Array.ext (by simp) fun i inside inside' => ?_
    rw [Array.getElem_modify]
    split
    next same =>
      subst same
      simp [action, stmt, Array.getD_eq_getD_getElem?, inside']
    · rfl
  rw [setAction, stmts]

theorem mapActions_self {change : Action → Action}
    (same : ∀ id ∈ m.order.toList, change (m.action id) = m.action id) :
    m.mapActions change = m := by
  have listed : ∀ ids : List StmtId, (∀ id ∈ ids, change (m.action id) = m.action id) →
      ids.foldl (fun m id => m.setAction id (change (m.action id))) m = m := by
    intro ids known
    induction ids with
    | nil => rfl
    | cons first rest ih =>
      rw [foldl_cons, known first mem_cons_self, setAction_self]
      exact ih fun id later => known id (.tail _ later)
  rw [mapActions, ← Array.foldl_toList]
  exact listed _ same

theorem foldl_self {α : Type} {step : Method → α → Method} {xs : List α}
    (same : ∀ x ∈ xs, step m x = m) : xs.foldl step m = m := by
  induction xs with
  | nil => rfl
  | cons x xs ih =>
    rw [foldl_cons, same x mem_cons_self]
    exact ih fun y later => same y (.tail _ later)

end Method

end DexLift.Ir
