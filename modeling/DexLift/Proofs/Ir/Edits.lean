import DexLift.Proofs.Ir.Chains
import DexLift.Proofs.Ir.Tidy

/-!
# Edits of a body

A body is edited by linking a statement that is not linked yet, next to one that
is, and by unlinking statements. A method does not write down the links as long as
its edits are of this kind: its body is then a list, and the links can be told from
it. Beside such a method stands the one that keeps its links from the beginning and
rewrites them at every edit. Both go through the same bodies, the links lead through
the body in either direction, and the labels that are placed are those of the body.

A statement that replaces another may place the label which the other one places. For
a moment two linked statements place it; the table already names the new one then,
so that unlinking the old one does not take the label away.
-/

namespace DexLift.Ir

open List

/-- An edit of a method: making a label or a statement, linking a statement, or unlinking one. -/
inductive Edit where
  | newLabel
  | newStmt (s : Stmt)
  | append (id : StmtId)
  | insertBefore (place id : StmtId)
  | insertAfter (place id : StmtId)
  | replace (old new : StmtId)
  | remove (id : StmtId)

namespace Edit

variable {place : StmtId}

def apply (m : Method) : Edit → Method
  | newLabel => m.newLabel.2
  | newStmt s => (m.newStmt s).2
  | append id => m.append id
  | insertBefore place id => m.insertBefore place id
  | insertAfter place id => m.insertAfter place id
  | replace old new => m.replace old new
  | remove id => m.remove id

/-- A list with something else where an element was. -/
def exchange (place : StmtId) (pieces xs : List StmtId) : List StmtId :=
  xs.flatMap fun x => if x = place then pieces else [x]

/-- What an edit does to a plain list of statements. -/
def onList (xs : List StmtId) : Edit → List StmtId
  | newLabel | newStmt _ => xs
  | append id => xs ++ [id]
  | insertBefore place id => exchange place [id, place] xs
  | insertAfter place id => exchange place [place, id] xs
  | replace old new => exchange old [new] xs
  | remove id => exchange id [] xs

theorem exchange_of_not_mem {xs : List StmtId} (absent : place ∉ xs) (pieces : List StmtId) :
    exchange place pieces xs = xs := by
  induction xs with
  | nil => rfl
  | cons x xs ih =>
    obtain ⟨apart, absent⟩ := not_or.mp (mt mem_cons.mpr absent)
    have rest := ih absent
    rw [exchange] at rest
    rw [exchange, flatMap_cons, rest, if_neg (Ne.symm apart), singleton_append]

theorem exchange_middle {before after : List StmtId} (nodup : (before ++ place :: after).Nodup)
    (pieces : List StmtId) :
    exchange place pieces (before ++ place :: after) = before ++ pieces ++ after := by
  have absent := (nodup_cons.mp (nodup_middle.mp nodup)).1
  obtain ⟨notBefore, notAfter⟩ := not_or.mp (mt mem_append.mpr absent)
  have front := exchange_of_not_mem notBefore pieces
  have behind := exchange_of_not_mem notAfter pieces
  rw [exchange] at front behind
  rw [exchange, flatMap_append, flatMap_cons, front, behind, if_pos rfl, append_assoc]

end Edit

namespace Method

variable {m : Method} {id : StmtId} {leaving : Option StmtId}

/-- A statement may be linked: it was made and is not linked, and if it is a label it places one
that the method has and that no linked statement places, except one that is about to go. -/
structure MayLink (m : Method) (id : StmtId) (leaving : Option StmtId) : Prop where
  made : id < m.stmts.size
  loose : id ∉ m.order.toList
  known : ∀ l, m.action id = .label l → ∃ index < m.placed.size, l = .number index
  single : ∀ l, m.action id = .label l →
    ∀ other ∈ m.order.toList, m.action other = .label l → leaving = some other

theorem MayLink.other (made : id < m.stmts.size) (loose : id ∉ m.order.toList)
    (noLabel : (m.action id).label? = none) : m.MayLink id leaving := by
  have never : ∀ l, m.action id ≠ .label l := by
    intro l here
    rw [here] at noLabel
    cases noLabel
  exact ⟨made, loose, fun l here => absurd here (never l), fun l here => absurd here (never l)⟩

theorem MayLink.label (index : Nat) (made : id < m.stmts.size) (loose : id ∉ m.order.toList)
    (here : (m.action id).label? = some (.number index)) (known : index < m.placed.size)
    (single : ∀ other ∈ m.order.toList, (m.action other).label? = some (.number index) →
      leaving = some other) : m.MayLink id leaving := by
  have only : ∀ l, m.action id = .label l → l = .number index := fun l same =>
    Option.some.inj ((Action.label?_eq_some.mpr same).symm.trans here)
  refine ⟨made, loose, fun l same => ⟨index, known, only l same⟩, ?_⟩
  intro l same other member again
  rw [only l same] at again
  exact single other member (Action.label?_eq_some.mpr again)

end Method

/-- An edit fits a method: it names a linked place, and links a statement that may be linked. Any
statement may be unlinked. -/
def Edit.Fits (m : Method) : Edit → Prop
  | newLabel | newStmt _ | remove _ => True
  | append id => m.MayLink id none
  | insertBefore place id | insertAfter place id => place ∈ m.order.toList ∧ m.MayLink id none
  | replace old new => old ∈ m.order.toList ∧ m.MayLink new (some old)

def Edit.AllFit (m : Method) : List Edit → Prop
  | [] => True
  | edit :: edits => edit.Fits m ∧ AllFit (edit.apply m) edits

/-! ## Keeping the links beside the body -/

namespace Method

variable {m : Method}

section Links

variable {m : Method} {c : Chain} {before after : List StmtId} {place id : StmtId}

def withLinks (m : Method) (c : Chain) : Method := { m with chain := some c }

theorem notePlace_withLinks (m : Method) (c : Chain) (id : StmtId) :
    (m.withLinks c).notePlace id = (m.notePlace id).withLinks c := by
  have same : (m.withLinks c).action id = m.action id := rfl
  unfold notePlace
  rw [same]
  split <;> rfl

theorem forgetPlace_withLinks (m : Method) (c : Chain) (id : StmtId) :
    (m.withLinks c).forgetPlace id = (m.forgetPlace id).withLinks c := by
  have same : (m.withLinks c).action id = m.action id := rfl
  unfold forgetPlace
  rw [same]
  split
  · change (if m.placed[_]?.join = some id then _ else _) = _
    split <;> rfl
  · rfl

theorem editChain_withLinks {edit : Chain → Chain} {xs : List StmtId} (lists : (edit c).Lists xs) :
    (m.withLinks c).editChain edit =
      ({ m with order := xs.toArray } : Method).withLinks (edit c) := by
  simp only [editChain, withLinks, Option.getD_some, lists.toList_eq]

theorem append_withLinks (plain : m.chain = none) (lists : c.Lists m.order.toList)
    (new : id ∉ m.order.toList) :
    (m.withLinks c).append id = (m.append id).withLinks (c.append id) := by
  have pushed : m.order.push id = (m.order.toList ++ [id]).toArray := by
    rw [← Array.toList_push]
  rw [append_plain plain, pushed, ← notePlace_withLinks]
  unfold append
  rw [if_neg (by simp [withLinks]), editChain_withLinks (lists.append new)]

section

variable (tidy : m.Tidy) (split : m.order.toList = before ++ place :: after)
  (lists : c.Lists m.order.toList) (new : id ∉ m.order.toList)

include tidy split lists new

theorem insertBefore_withLinks :
    (m.withLinks c).insertBefore place id =
      (m.insertBefore place id).withLinks (c.insertBefore place id) := by
  rw [split] at lists new
  rw [insertBefore_eq tidy split, ← notePlace_withLinks]
  change ((m.withLinks c).editChain _).notePlace id = _
  rw [editChain_withLinks (lists.insertBefore new)]

theorem insertAfter_withLinks :
    (m.withLinks c).insertAfter place id =
      (m.insertAfter place id).withLinks (c.insertAfter place id) := by
  rw [split] at lists new
  rw [insertAfter_eq tidy split, ← notePlace_withLinks]
  change ((m.withLinks c).editChain _).notePlace id = _
  rw [editChain_withLinks (lists.insertAfter new)]

end

theorem remove_plain (plain : m.chain = none) (nodup : m.order.toList.Nodup)
    (split : m.order.toList = before ++ id :: after) :
    m.remove id = forgetPlace { m with order := (before ++ after).toArray } id := by
  have array : m.order = (before ++ id :: after).toArray := by rw [← split]
  rw [split] at nodup
  have absent := (nodup_cons.mp (nodup_middle.mp nodup)).1
  obtain ⟨notBefore, notAfter⟩ := not_or.mp (mt mem_append.mpr absent)
  have gone : m.order.filter (· == id) = #[id] := by
    have front : before.filter (· == id) = [] :=
      filter_eq_nil_iff.mpr fun x member same => notBefore (eq_of_beq same ▸ member)
    have behind : after.filter (· == id) = [] :=
      filter_eq_nil_iff.mpr fun x member same => notAfter (eq_of_beq same ▸ member)
    rw [array, filter_toArray, filter_append, filter_cons_of_pos (by simp), front, behind]
    rfl
  have kept : (m.order.filter fun other => !(other == id)) = (before ++ after).toArray := by
    rw [array, filter_toArray, filter_middle nodup]
  unfold remove removeWhere
  rw [plain]
  dsimp only
  rw [if_pos Option.isNone_none, gone, kept]
  rfl

theorem remove_of_not_mem (plain : m.chain = none) (outside : id ∉ m.order.toList) :
    m.remove id = m := by
  have gone : m.order.filter (· == id) = #[] := by
    rw [Array.filter_eq_empty_iff]
    intro other member same
    exact outside (eq_of_beq same ▸ Array.mem_toList_iff.mpr member)
  have kept : (m.order.filter fun other => !(other == id)) = m.order := by
    rw [Array.filter_eq_self]
    intro other member
    have different : other ≠ id := fun same => outside (same ▸ Array.mem_toList_iff.mpr member)
    simpa using different
  have unfolded : m.remove id = m.removeWhere (· == id) := by
    unfold remove
    rw [plain]
  have bare : m.chain.isNone = true := by rw [plain]; rfl
  rw [unfolded]
  unfold removeWhere
  rw [if_pos bare, gone, kept]
  rfl

theorem remove_withLinks (plain : m.chain = none) (lists : c.Lists m.order.toList) (id : StmtId) :
    (m.withLinks c).remove id = (m.remove id).withLinks (c.remove id) := by
  by_cases inside : id ∈ m.order.toList
  · obtain ⟨before, after, split⟩ := append_of_mem inside
    have linked := (lists.linked_iff id).mpr inside
    have removed := (split ▸ lists).remove
    rw [remove_plain plain lists.nodup split, ← forgetPlace_withLinks]
    change (m.withLinks c).unchain c id = _
    rw [unchain, if_pos linked, editChain_withLinks removed]
  · have loose : ¬ (c.link id).linked = true := mt (lists.linked_iff id).mp inside
    rw [remove_of_not_mem plain inside, lists.remove_of_not_mem inside]
    change (m.withLinks c).unchain c id = _
    rw [unchain, if_neg loose]

end Links

/-! ## The table of labels -/

section Labels

variable {m : Method} {before after : List StmtId} {old new id : StmtId} {index : Nat}

theorem notePlace_label (here : m.action id = .label (.number index)) :
    m.notePlace id = { m with placed := m.placed.setIfInBounds index (some id) } := by
  unfold notePlace
  rw [here]

theorem forgetPlace_label (here : m.action id = .label (.number index)) :
    m.forgetPlace id = if m.placed[index]?.join = some id then
      { m with placed := m.placed.setIfInBounds index none } else m := by
  unfold forgetPlace
  rw [here]

theorem Tidy.link (tidy : m.Tidy) (split : m.order.toList = before ++ after)
    (may : m.MayLink id none) :
    (notePlace { m with order := (before ++ id :: after).toArray } id).Tidy := by
  cases label : (m.action id).label? with
  | none =>
    have same : notePlace { m with order := (before ++ id :: after).toArray } id =
        { m with order := (before ++ id :: after).toArray } := notePlace_of_not_label label
    rw [same]
    exact tidy.insert_other split rfl tidy.plain rfl rfl may.loose may.made label
  | some l =>
    have here := Action.label?_eq_some.mp label
    obtain ⟨index, known, rfl⟩ := may.known l here
    refine tidy.insert_label split may.loose may.made here known ?_
    cases placed : m.placedAt? (.number index) with
    | none => rfl
    | some other =>
      obtain ⟨member, same⟩ := tidy.label_of_placed _ other placed
      cases may.single _ here other member same

section

variable (tidy : m.Tidy) (split : m.order.toList = before ++ old :: after)

include tidy split

theorem Tidy.remove_label (isOld : m.action old = .label (.number index)) : m.remove old =
      { m with
        order := (before ++ after).toArray
        placed := m.placed.setIfInBounds index none } := by
  have inside : old ∈ m.order.toList := by simp [split]
  have placed := tidy.placed_of_label old inside _ isOld
  rw [remove_plain tidy.plain tidy.nodup split]
  exact (forgetPlace_label (m := { m with order := (before ++ after).toArray }) isOld).trans
    (if_pos placed)

/-- A label statement that takes the place of another for the same label: the old one is no longer
the place of the label when it is unlinked. -/
theorem Tidy.replace_same_label (may : m.MayLink new (some old))
    (isOld : m.action old = .label (.number index)) (isNew : m.action new = .label (.number index))
    (known : index < m.placed.size) :
    m.replace old new =
      notePlace { m.remove old with order := (before ++ new :: after).toArray } new := by
  have inside : old ∈ m.order.toList := by simp [split]
  have different : new ≠ old := fun same => may.loose (same ▸ inside)
  have inserted : m.insertBefore old new =
      { m with
        order := (before ++ new :: old :: after).toArray
        placed := m.placed.setIfInBounds index (some new) } := by
    rw [insertBefore_eq tidy split]
    exact notePlace_label isNew
  have between : (m.insertBefore old new).order.toList = (before ++ [new]) ++ old :: after := by
    simp [inserted]
  have nodup : (m.insertBefore old new).order.toList.Nodup := by
    rw [inserted]
    exact nodup_insert (split ▸ tidy.nodup) (split ▸ may.loose)
  have plain : (m.insertBefore old new).chain = none := by
    rw [inserted]
    exact tidy.plain
  have kept : ¬ (m.placed.setIfInBounds index (some new))[index]?.join = some old := by
    simp [known, different]
  have noted : notePlace { m.remove old with order := (before ++ new :: after).toArray } new =
      { m with
        order := (before ++ new :: after).toArray
        placed := m.placed.setIfInBounds index (some new) } := by
    rw [tidy.remove_label split isOld]
    refine (notePlace_label (m := { m with
        order := (before ++ new :: after).toArray
        placed := m.placed.setIfInBounds index none }) isNew).trans ?_
    rw [Array.setIfInBounds_setIfInBounds]
  rw [noted, Method.replace, remove_plain plain nodup between, inserted, append_assoc,
    singleton_append]
  exact (forgetPlace_label (m := { m with
    order := (before ++ new :: after).toArray
    placed := m.placed.setIfInBounds index (some new) }) isOld).trans (if_neg kept)

theorem Tidy.exchange (may : m.MayLink new (some old)) : (m.replace old new).Tidy := by
  by_cases shared : ∃ l, m.action old = .label l ∧ m.action new = .label l
  · obtain ⟨l, isOld, isNew⟩ := shared
    obtain ⟨index, known, rfl⟩ := may.known l isNew
    have removed := tidy.remove split
    have equal := tidy.remove_label split isOld
    have rest : before ++ after ⊆ m.order.toList := by
      rw [split]
      exact ((sublist_cons_self old after).append_left before).subset
    rw [tidy.replace_same_label split may isOld isNew known]
    have here : (m.remove old).action new = .label (.number index) := by
      rwa [action_congr removed.stmts]
    refine removed.tidy.insert_label removed.order_eq ?_ ?_ here ?_ ?_
    · rw [removed.order_eq]
      exact fun member => may.loose (rest member)
    · rw [removed.stmts]
      exact may.made
    · rw [equal]
      simpa using known
    · simp [equal, placedAt?, known]
  · have apart : m.MayLink new none :=
      ⟨may.made, may.loose, may.known, fun l here other member label =>
        absurd ⟨l, Option.some.inj (may.single l here other member label) ▸ label, here⟩ shared⟩
    have linked := tidy.link split apart
    rw [← insertBefore_eq tidy split] at linked
    have between : (m.insertBefore old new).order.toList = (before ++ [new]) ++ old :: after := by
      obtain ⟨placed, -, equal⟩ :=
        notePlace_with { m with order := (before ++ new :: old :: after).toArray } new
      rw [insertBefore_eq tidy split, equal]
      simp
    exact (linked.remove between).tidy

end

end Labels

/-! ## What one edit preserves -/

structure Agrees (m linked : Method) (xs : List StmtId) : Prop where
  tidy : m.Tidy
  order_eq : m.order.toList = xs
  links : ∃ c : Chain, c.Lists xs ∧ linked = m.withLinks c

namespace Agrees

variable {m linked : Method} {xs before after : List StmtId} {place old new id : StmtId}

theorem order_notePlace (m : Method) (id : StmtId) : (m.notePlace id).order = m.order := by
  obtain ⟨placed, -, equal⟩ := notePlace_with m id
  rw [equal]

theorem append (agrees : Agrees m linked xs) (may : m.MayLink id none) :
    Agrees (m.append id) (linked.append id) (xs ++ [id]) := by
  obtain ⟨tidy, rfl, c, lists, rfl⟩ := agrees
  have pushed : m.append id =
      notePlace { m with order := (m.order.toList ++ [id]).toArray } id := by
    rw [append_plain tidy.plain, ← Array.toList_push]
  refine ⟨?_, ?_, _, lists.append may.loose, append_withLinks tidy.plain lists may.loose⟩
  · rw [pushed]
    exact tidy.link (append_nil _).symm may
  · rw [pushed, order_notePlace]

section

variable (agrees : Agrees m linked (before ++ place :: after)) (may : m.MayLink id none)

include agrees may

theorem insertBefore :
    Agrees (m.insertBefore place id) (linked.insertBefore place id)
      (before ++ id :: place :: after) := by
  obtain ⟨tidy, split, c, lists, rfl⟩ := agrees
  refine ⟨?_, ?_, _, lists.insertBefore (split ▸ may.loose),
    insertBefore_withLinks tidy split (split ▸ lists) may.loose⟩
  · rw [insertBefore_eq tidy split]
    exact tidy.link split may
  · rw [insertBefore_eq tidy split, order_notePlace]

theorem insertAfter :
    Agrees (m.insertAfter place id) (linked.insertAfter place id)
      (before ++ place :: id :: after) := by
  obtain ⟨tidy, split, c, lists, rfl⟩ := agrees
  refine ⟨?_, ?_, _, lists.insertAfter (split ▸ may.loose),
    insertAfter_withLinks tidy split (split ▸ lists) may.loose⟩
  · have behind : m.order.toList = (before ++ [place]) ++ after := by simpa using split
    have linked := tidy.link behind may
    rw [append_assoc, singleton_append] at linked
    rwa [insertAfter_eq tidy split]
  · rw [insertAfter_eq tidy split, order_notePlace]

end

theorem remove (agrees : Agrees m linked (before ++ id :: after)) :
    Agrees (m.remove id) (linked.remove id) (before ++ after) := by
  obtain ⟨tidy, split, c, lists, rfl⟩ := agrees
  have removed := tidy.remove split
  exact ⟨removed.tidy, removed.order_eq, _, lists.remove,
    remove_withLinks tidy.plain (split ▸ lists) id⟩

theorem remove_of_not_mem (agrees : Agrees m linked xs) (outside : id ∉ xs) :
    Agrees (m.remove id) (linked.remove id) xs := by
  obtain ⟨tidy, rfl, c, lists, rfl⟩ := agrees
  rw [remove_withLinks tidy.plain lists, Method.remove_of_not_mem tidy.plain outside,
    lists.remove_of_not_mem outside]
  exact ⟨tidy, rfl, c, lists, rfl⟩

/-- Between the two halves of a replacement the table may name one of two linked statements for the
same label, so that it is the whole replacement that keeps the method tidy. -/
theorem replace (agrees : Agrees m linked (before ++ old :: after))
    (may : m.MayLink new (some old)) :
    Agrees (m.replace old new) (linked.replace old new) (before ++ new :: after) := by
  obtain ⟨tidy, split, c, lists, rfl⟩ := agrees
  have inserted := insertBefore_eq tidy split new
  have between : (m.insertBefore old new).order.toList = (before ++ [new]) ++ old :: after := by
    rw [inserted, order_notePlace, append_assoc, singleton_append]
  have plain : (m.insertBefore old new).chain = none := by
    obtain ⟨placed, -, equal⟩ :=
      notePlace_with { m with order := (before ++ new :: old :: after).toArray } new
    rw [inserted, equal]
    exact tidy.plain
  have lists' : (c.insertBefore old new).Lists ((before ++ [new]) ++ old :: after) := by
    simpa using lists.insertBefore (split ▸ may.loose)
  refine ⟨tidy.exchange split may, ?_, _, by simpa using lists'.remove, ?_⟩
  · obtain ⟨placed, -, equal⟩ := forgetPlace_with
      { m.insertBefore old new with order := ((before ++ [new]) ++ after).toArray } old
    rw [Method.replace, remove_plain plain (between ▸ lists'.nodup) between, equal]
    simp
  · rw [Method.replace, insertBefore_withLinks tidy split (split ▸ lists) may.loose]
    exact remove_withLinks plain (between ▸ lists') old

theorem edit (agrees : Agrees m linked xs) {edit : Edit} (fits : edit.Fits m) :
    Agrees (edit.apply m) (edit.apply linked) (edit.onList xs) := by
  have splits : ∀ place ∈ xs, ∃ before after, xs = before ++ place :: after :=
    fun _ => append_of_mem
  have inside : ∀ place ∈ m.order.toList, place ∈ xs := fun _ => (agrees.order_eq ▸ ·)
  have nodup : xs.Nodup := agrees.order_eq ▸ agrees.tidy.nodup
  cases edit with
  | newLabel =>
    obtain ⟨tidy, same, c, lists, rfl⟩ := agrees
    exact ⟨tidy.newLabel, same, c, lists, rfl⟩
  | newStmt s =>
    obtain ⟨tidy, same, c, lists, rfl⟩ := agrees
    exact ⟨tidy.newStmt s, same, c, lists, rfl⟩
  | append id => exact agrees.append fits
  | insertBefore place id =>
    obtain ⟨before, after, rfl⟩ := splits place (inside place fits.1)
    rw [Edit.onList, Edit.exchange_middle nodup, append_assoc]
    exact agrees.insertBefore fits.2
  | insertAfter place id =>
    obtain ⟨before, after, rfl⟩ := splits place (inside place fits.1)
    rw [Edit.onList, Edit.exchange_middle nodup, append_assoc]
    exact agrees.insertAfter fits.2
  | replace old new =>
    obtain ⟨before, after, rfl⟩ := splits old (inside old fits.1)
    rw [Edit.onList, Edit.exchange_middle nodup, append_assoc]
    exact agrees.replace fits.2
  | remove id =>
    by_cases member : id ∈ xs
    · obtain ⟨before, after, rfl⟩ := splits id member
      rw [Edit.onList, Edit.exchange_middle nodup, append_nil]
      exact agrees.remove
    · rw [Edit.onList, Edit.exchange_of_not_mem member]
      exact agrees.remove_of_not_mem member

theorem edits (agrees : Agrees m linked xs) {edits : List Edit} (fit : Edit.AllFit m edits) :
    Agrees (edits.foldl Edit.apply m) (edits.foldl Edit.apply linked)
      (edits.foldl Edit.onList xs) := by
  induction edits generalizing m linked xs with
  | nil => exact agrees
  | cons edit edits ih => exact ih (agrees.edit fit.1) fit.2

end Agrees

/-! ## Going through a body -/

/-- A method goes through its body as through a list without repetitions: in program order, from the
end, and in both directions from any place. The labels that are placed are those of the list. -/
structure GoesThrough (m : Method) (xs : List StmtId) : Prop where
  nodup : xs.Nodup
  order_eq : m.order.toList = xs
  last : m.last? = xs.getLast?
  isLinked : ∀ id, m.isLinked id = true ↔ id ∈ xs
  notDetached : ∀ id ∈ xs, m.isDetached id = false
  onward : ∀ before id after, xs = before ++ id :: after → m.onward id = id :: after
  inFront : ∀ before id after, xs = before ++ id :: after → m.inFront id = before.reverse
  placed : ∀ l id, m.placedAt? l = some id ↔ id ∈ xs ∧ m.action id = .label l

theorem Tidy.placedAt_iff (tidy : m.Tidy) (l : Label) (id : StmtId) :
    m.placedAt? l = some id ↔ id ∈ m.order.toList ∧ m.action id = .label l :=
  ⟨tidy.label_of_placed l id, fun here => tidy.placed_of_label id here.1 l here.2⟩

theorem isLinked_iff (m : Method) (id : StmtId) : m.isLinked id = true ↔ id ∈ m.order.toList := by
  rw [isLinked, Array.contains_iff_mem, Array.mem_toList_iff]

theorem Tidy.goesThrough (tidy : m.Tidy) : m.GoesThrough m.order.toList where
  nodup := tidy.nodup
  order_eq := rfl
  last := by rw [last?, tidy.plain, ← Array.getLast?_toList]
  isLinked := m.isLinked_iff
  notDetached id _ := by rw [isDetached, tidy.plain]
  onward before id after split := by
    have absent := (nodup_cons.mp (nodup_middle.mp (split ▸ tidy.nodup))).1
    have others : ∀ other ∈ before, (other != id) = true := fun other member =>
      bne_iff_ne.mpr fun same => absent (mem_append_left _ (same ▸ member))
    rw [Method.onward, tidy.plain, split]
    simp [dropWhile_append_of_pos others]
  inFront before id after split := by
    have absent := (nodup_cons.mp (nodup_middle.mp (split ▸ tidy.nodup))).1
    have others : ∀ other ∈ before, (other != id) = true := fun other member =>
      bne_iff_ne.mpr fun same => absent (mem_append_left _ (same ▸ member))
    rw [Method.inFront, tidy.plain, split]
    simp [takeWhile_append_of_pos others]
  placed := tidy.placedAt_iff

theorem Tidy.goesThrough_links (tidy : m.Tidy) {c : Chain} (lists : c.Lists m.order.toList) :
    (m.withLinks c).GoesThrough m.order.toList where
  nodup := tidy.nodup
  order_eq := rfl
  last := lists.last
  isLinked := m.isLinked_iff
  notDetached id inside := by simp [isDetached, withLinks, (lists.linked_iff id).mpr inside]
  onward before id after split := by
    rw [split] at lists
    exact lists.forward_eq
  inFront before id after split := by
    have behind : m.order.toList = (before ++ [id]) ++ after := by simpa using split
    rw [behind] at lists
    have back := lists.backward_eq
    rw [getLast?_concat, reverse_concat] at back
    change (c.backward (some id)).tail = _
    rw [back, tail_cons]
  placed := tidy.placedAt_iff

/-- Edits that fit, from a method without a body on, make it the list that they make of the empty
list; the method goes through it, and so does the method that keeps its links. Following the next
links from the first statement visits that list and ends, following the links back from the last
one visits it in reverse, and the linked statements are those that are visited. -/
theorem edits_go_through_list (ref : MethodRef) (access : Access) (edits : List Edit)
    (fit : Edit.AllFit (ofRef ref access) edits) :
    let xs := edits.foldl Edit.onList []
    let m := edits.foldl Edit.apply (ofRef ref access)
    m.GoesThrough xs ∧ ∃ c : Chain,
      edits.foldl Edit.apply ((ofRef ref access).withLinks {}) = m.withLinks c ∧
      (m.withLinks c).GoesThrough xs ∧
      Chain.Visits (fun id => (c.link id).next) c.first xs ∧
      Chain.Visits (fun id => (c.link id).prev) c.last xs.reverse ∧
      ∀ id, (c.link id).linked = true ↔ id ∈ xs := by
  intro xs m
  have unplaced : ∀ l, (ofRef ref access).placedAt? l = none := by
    intro l
    cases l <;> rfl
  have empty : (ofRef ref access).Tidy :=
    ⟨rfl, nodup_nil, by simp [ofRef], by simp [ofRef], by simp [unplaced]⟩
  have start : Agrees (ofRef ref access) ((ofRef ref access).withLinks {}) [] :=
    ⟨empty, rfl, {}, Chain.lists_empty, rfl⟩
  obtain ⟨tidy, same, c, lists, equal⟩ := start.edits fit
  have fromFirst : c.Lists ([] ++ xs) := lists
  have fromLast : c.Lists (xs ++ []) := by rwa [append_nil]
  have nexts := fromFirst.visits_after
  have prevs := fromLast.visits_before
  rw [← lists.first] at nexts
  rw [← lists.last] at prevs
  have plain := tidy.goesThrough
  have kept := tidy.goesThrough_links (same ▸ lists)
  rw [same] at plain kept
  exact ⟨plain, c, equal, kept, nexts, prevs, lists.linked_iff⟩

/-- A label statement gives way to another one for the same label, and comes back at the end when
that one has gone. -/
def relabelling : List Edit :=
  [.newLabel, .newStmt ⟨.label (.number 0), none⟩, .newStmt ⟨.nop, none⟩,
    .newStmt ⟨.label (.number 0), none⟩, .newStmt ⟨.return none, none⟩,
    .append 0, .insertAfter 0 1, .replace 0 2, .insertBefore 1 3, .remove 1, .remove 1, .append 1,
    .remove 2, .append 0]

theorem edits_go_through_list_relabelling :
    let ref : MethodRef := default
    let xs := [3, 1, 0]
    let m := relabelling.foldl Edit.apply (ofRef ref default)
    Edit.AllFit (ofRef ref default) relabelling ∧ relabelling.foldl Edit.onList [] = xs ∧
    m.GoesThrough xs ∧ ∃ c : Chain,
      relabelling.foldl Edit.apply ((ofRef ref default).withLinks {}) = m.withLinks c ∧
      (m.withLinks c).GoesThrough xs ∧
      Chain.Visits (fun id => (c.link id).next) c.first xs ∧
      Chain.Visits (fun id => (c.link id).prev) c.last xs.reverse ∧
      ∀ id, (c.link id).linked = true ↔ id ∈ xs := by
  intro ref xs m
  have fit : Edit.AllFit (ofRef ref default) relabelling := by
    refine ⟨trivial, trivial, trivial, trivial, trivial, .label 0 ?_ ?_ ?_ ?_ ?_,
      ⟨?_, .other ?_ ?_ ?_⟩, ⟨?_, .label 0 ?_ ?_ ?_ ?_ ?_⟩, ⟨?_, .other ?_ ?_ ?_⟩, trivial,
      trivial, .other ?_ ?_ ?_, trivial, .label 0 ?_ ?_ ?_ ?_ ?_, trivial⟩
    all_goals with_unfolding_all decide
  exact ⟨fit, by decide, edits_go_through_list ref default relabelling fit⟩

end Method

end DexLift.Ir
