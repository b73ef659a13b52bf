import DexLift.Ir.Method
import DexLift.Proofs.Tables
import Mathlib.Data.List.Induction
import Mathlib.Data.List.Nodup
import Mathlib.Data.List.Perm.Subperm

/-!
# Chains that are lists

Two ends and two links for each statement say the same thing four times over. A
chain lists some statements when its ends are those of the list and the links of
every statement are its neighbours there, and when everything that is not in the
list is linked to nothing.

There are two edits. A statement that is off the chain is put between two
neighbours, at either end or in the middle, and a statement is taken out from
between its neighbours. Each changes the links of the two neighbours and of the
statement itself, and leaves a chain that lists the statements of the changed
list. What is found by following the links of such a chain, in either direction,
is the list and then nothing.
-/

namespace DexLift.Ir.Chain

open List

/-! ## What one write changes -/

section Writes

variable (c : Chain) (id other : StmtId)

@[simp] theorem link_empty : ({} : Chain).link id = {} := by simp [link]

@[simp] theorem modify_first (change : Link → Link) : (c.modify id change).first = c.first := rfl

@[simp] theorem modify_last (change : Link → Link) : (c.modify id change).last = c.last := rfl

theorem link_modify (change : Link → Link) :
    (c.modify id change).link other = if other = id then change (c.link id) else c.link other := by
  have grown : ∀ i, (c.links ++ Array.replicate (id + 1 - c.links.size) default).getD i {} =
      c.links.getD i {} := by
    intro i
    simp only [Array.getD_eq_getD_getElem?, Array.getElem?_append, Array.getElem?_replicate]
    split
    · rfl
    next outside =>
      rw [Array.getElem?_eq_none (Nat.le_of_not_lt outside)]
      split <;> rfl
  have grows : ∀ size index : Nat, index < size + (index + 1 - size) := by omega
  have inside : id < (c.links ++ Array.replicate (id + 1 - c.links.size) default).size := by
    simpa only [Array.size_append, Array.size_replicate] using grows c.links.size id
  simp only [link, ← grown]
  simp only [modify, getD_modify, inside, and_true]
  by_cases same : other = id
  · rw [if_pos same, if_pos same, same]
  · rw [if_neg same, if_neg same]

variable (prev next : Option StmtId)

theorem link_setNext : (c.setNext prev next).link other =
    if prev = some other then { c.link other with next } else c.link other := by
  cases prev with
  | none => simp [setNext, link]
  | some place =>
    rw [setNext, link_modify]
    by_cases same : other = place
    · simp [same]
    · simp [same, Ne.symm same]

theorem link_setPrev : (c.setPrev prev next).link other =
    if next = some other then { c.link other with prev } else c.link other := by
  cases next with
  | none => simp [setPrev, link]
  | some place =>
    rw [setPrev, link_modify]
    by_cases same : other = place
    · simp [same]
    · simp [same, Ne.symm same]

theorem setNext_first : (c.setNext prev next).first = if prev = none then next else c.first := by
  cases prev <;> rfl

@[simp] theorem setNext_last : (c.setNext prev next).last = c.last := by
  cases prev <;> rfl

@[simp] theorem setPrev_first : (c.setPrev prev next).first = c.first := by
  cases next <;> rfl

theorem setPrev_last : (c.setPrev prev next).last = if next = none then prev else c.last := by
  cases next <;> rfl

variable {c id other prev next}

theorem link_put_self (notPrev : prev ≠ some id) (notNext : next ≠ some id) :
    (c.put prev next id).link id = ⟨prev, next, true⟩ := by
  rw [put, link_setPrev, if_neg notNext, link_setNext, if_neg notPrev, link_modify, if_pos rfl]

theorem link_put_of_ne (apart : other ≠ id) : (c.put prev next id).link other =
    if next = some other then
      { (if prev = some other then { c.link other with next := some id } else c.link other) with
        prev := some id }
    else if prev = some other then { c.link other with next := some id } else c.link other := by
  rw [put, link_setPrev, link_setNext, link_modify, if_neg apart]

theorem remove_of_linked (linked : (c.link id).linked = true) : c.remove id =
    ((c.setNext (c.link id).prev (c.link id).next).setPrev (c.link id).prev
      (c.link id).next).modify id fun _ => {} :=
  if_pos linked

theorem remove_of_not_linked (loose : (c.link id).linked = false) : c.remove id = c :=
  if_neg (by simp [loose])

end Writes

/-! ## Listing statements -/

/-- The ends of a chain are those of a list without repetitions, the links of each statement of the
list are its neighbours there, and no other statement is linked to anything. -/
structure Lists (c : Chain) (xs : List StmtId) : Prop where
  nodup : xs.Nodup
  first : c.first = xs.head?
  last : c.last = xs.getLast?
  link : ∀ before id after, xs = before ++ id :: after →
    c.link id = ⟨before.getLast?, after.head?, true⟩
  loose : ∀ id, id ∉ xs → c.link id = {}

section Splits

variable {before after rest : List StmtId} {id : StmtId} {l : Link}

section

variable (nodup : (before ++ id :: after).Nodup)

include nodup

theorem getLast?_middle : (before ++ id :: after).getLast? = some id ↔ after = [] := by grind

theorem head?_middle : (before ++ id :: after).head? = some id ↔ before = [] := by
  cases before with
  | nil => simp
  | cons first before =>
    have elsewhere : id ∉ first :: before := fun inside =>
      (nodup_cons.mp (nodup_middle.mp nodup)).1 (mem_append_left _ inside)
    exact iff_of_false (fun same => elsewhere (mem_of_head? same)) (by simp)

theorem link_in_front (here : l = ⟨before.getLast?, (after ++ rest).head?, true⟩)
    (behind : List StmtId) :
    (if (before ++ id :: after).getLast? = some id then { l with next := behind.head? } else l) =
      ⟨before.getLast?, (after ++ behind).head?, true⟩ := by
  rw [here]
  cases after with
  | nil => rw [if_pos ((getLast?_middle nodup).mpr rfl)]; rfl
  | cons next after => rw [if_neg (mt (getLast?_middle nodup).mp (by simp))]; rfl

theorem link_behind (here : l = ⟨(rest ++ before).getLast?, after.head?, true⟩)
    (front : List StmtId) :
    (if (before ++ id :: after).head? = some id then { l with prev := front.getLast? } else l) =
      ⟨(front ++ before).getLast?, after.head?, true⟩ := by
  rw [here]
  cases before with
  | nil => rw [if_pos ((head?_middle nodup).mpr rfl), append_nil, append_nil]
  | cons first before =>
    rw [if_neg (mt (head?_middle nodup).mp (by simp)), getLast?_append_cons, getLast?_append_cons]

end

end Splits

theorem Lists.of_exists {c : Chain} {xs : List StmtId} (nodup : xs.Nodup)
    (first : c.first = xs.head?) (last : c.last = xs.getLast?)
    (link : ∀ id ∈ xs, ∃ before after, xs = before ++ id :: after ∧
      c.link id = ⟨before.getLast?, after.head?, true⟩)
    (loose : ∀ id, id ∉ xs → c.link id = {}) : c.Lists xs := by
  refine ⟨nodup, first, last, ?_, loose⟩
  rintro before id after rfl
  obtain ⟨before', after', same, here⟩ := link id (by simp)
  have absent := (nodup_cons.mp (nodup_middle.mp nodup)).1
  rw [mem_append, not_or] at absent
  obtain ⟨rfl, -, rfl⟩ := (append_cons_inj_of_notMem absent.1 absent.2).mp same
  exact here

theorem lists_empty : ({} : Chain).Lists [] where
  nodup := nodup_nil
  first := rfl
  last := rfl
  link := by simp
  loose := by simp

namespace Lists

variable {c : Chain} {xs before after : List StmtId} {id : StmtId}

theorem linked_iff (lists : c.Lists xs) (id : StmtId) : (c.link id).linked = true ↔ id ∈ xs := by
  constructor
  · intro linked
    by_contra outside
    rw [lists.loose id outside] at linked
    cases linked
  · intro inside
    obtain ⟨before, after, rfl⟩ := append_of_mem inside
    rw [lists.link before id after rfl]

/-- When another part is to stand in the middle of the list, the links of the statements around it
are right again once its two neighbours are linked to its ends. -/
theorem relinked {old : List StmtId} (lists : c.Lists (before ++ old ++ after))
    (new : List StmtId) {other : StmtId} (inside : other ∈ before ++ after) :
    ∃ front behind, before ++ new ++ after = front ++ other :: behind ∧
      (if after.head? = some other then
        { (if before.getLast? = some other then { c.link other with next := (new ++ after).head? }
            else c.link other) with prev := (before ++ new).getLast? }
      else if before.getLast? = some other then { c.link other with next := (new ++ after).head? }
      else c.link other) = ⟨front.getLast?, behind.head?, true⟩ := by
  obtain ⟨nodupFront, nodupAfter, apart⟩ := nodup_append'.mp lists.nodup
  have nodupBefore := (nodup_append'.mp nodupFront).1
  rcases mem_append.mp inside with early | late
  · rw [if_neg fun same => apart (mem_append_left old early) (mem_of_head? same)]
    obtain ⟨front, behind, rfl⟩ := append_of_mem early
    refine ⟨front, behind ++ new ++ after, by simp, ?_⟩
    have here := lists.link front other (behind ++ (old ++ after)) (by simp)
    rw [append_assoc]
    exact link_in_front nodupBefore here (new ++ after)
  · rw [if_neg (c := before.getLast? = some other) fun same =>
      apart (mem_append_left old (mem_of_getLast? same)) late]
    obtain ⟨front, behind, rfl⟩ := append_of_mem late
    refine ⟨before ++ new ++ front, behind, by simp, ?_⟩
    have here := lists.link (before ++ old ++ front) other behind (by simp)
    exact link_behind nodupAfter here (before ++ new)

theorem put (lists : c.Lists (before ++ after)) (new : id ∉ before ++ after) :
    (c.put before.getLast? after.head? id).Lists (before ++ id :: after) := by
  obtain ⟨notBefore, notAfter⟩ := not_or.mp (mt mem_append.mpr new)
  have whole : c.Lists (before ++ [] ++ after) := by rwa [append_nil]
  refine .of_exists ?_ ?_ ?_ ?_ ?_
  · exact nodup_middle.mpr (nodup_cons.mpr ⟨new, lists.nodup⟩)
  · rw [Chain.put, setPrev_first, setNext_first, modify_first, lists.first]
    cases before <;> simp
  · rw [Chain.put, setPrev_last, setNext_last, modify_last, lists.last]
    cases after <;> simp
  · intro other inside
    by_cases same : other = id
    · rw [same]
      exact ⟨before, after, rfl, link_put_self (fun same => notBefore (mem_of_getLast? same))
        fun same => notAfter (mem_of_head? same)⟩
    · rw [link_put_of_ne same]
      have around : other ∈ before ++ after := by simpa [same] using inside
      simpa using whole.relinked [id] around
  · intro other outside
    simp only [mem_append, mem_cons, not_or] at outside
    obtain ⟨early, different, late⟩ := outside
    rw [link_put_of_ne different, if_neg fun same => late (mem_of_head? same),
      if_neg fun same => early (mem_of_getLast? same)]
    exact lists.loose other (mem_append.not.mpr (not_or.mpr ⟨early, late⟩))

theorem remove (lists : c.Lists (before ++ id :: after)) :
    (c.remove id).Lists (before ++ after) := by
  have here := lists.link before id after rfl
  obtain ⟨absent, nodup⟩ := nodup_cons.mp (nodup_middle.mp lists.nodup)
  have whole : c.Lists (before ++ [id] ++ after) := by simpa using lists
  rw [remove_of_linked (by rw [here]), here]
  have links : ∀ other ≠ id, (((c.setNext before.getLast? after.head?).setPrev before.getLast?
      after.head?).modify id fun _ => {}).link other =
      if after.head? = some other then
        { (if before.getLast? = some other then { c.link other with next := after.head? }
            else c.link other) with prev := before.getLast? }
      else if before.getLast? = some other then { c.link other with next := after.head? }
      else c.link other := by
    intro other different
    rw [link_modify, if_neg different, link_setPrev, link_setNext]
  refine .of_exists nodup ?_ ?_ ?_ ?_
  · rw [modify_first, setPrev_first, setNext_first, lists.first]
    cases before <;> simp
  · rw [modify_last, setPrev_last, setNext_last, lists.last]
    cases after <;> simp
  · intro other inside
    rw [links other fun same => absent (same ▸ inside)]
    simpa using whole.relinked [] inside
  · intro other outside
    by_cases same : other = id
    · rw [same, link_modify, if_pos rfl]
    · obtain ⟨early, late⟩ := not_or.mp (mt mem_append.mpr outside)
      rw [links other same, if_neg fun same => late (mem_of_head? same),
        if_neg fun same => early (mem_of_getLast? same)]
      exact lists.loose other (by simp [early, late, same])

/-! ### The edits of a body -/

theorem append (lists : c.Lists xs) (new : id ∉ xs) : (c.append id).Lists (xs ++ [id]) := by
  rw [Chain.append, lists.last]
  have whole : c.Lists (xs ++ []) := by rwa [append_nil]
  exact whole.put (by rwa [append_nil])

theorem insertBefore {place : StmtId} (lists : c.Lists (before ++ place :: after))
    (new : id ∉ before ++ place :: after) :
    (c.insertBefore place id).Lists (before ++ id :: place :: after) := by
  rw [Chain.insertBefore, lists.link before place after rfl]
  exact lists.put new

theorem insertAfter {place : StmtId} (lists : c.Lists (before ++ place :: after))
    (new : id ∉ before ++ place :: after) :
    (c.insertAfter place id).Lists (before ++ place :: id :: after) := by
  rw [Chain.insertAfter, lists.link before place after rfl]
  have behind : c.Lists ((before ++ [place]) ++ after) := by simpa using lists
  have put := behind.put (by simpa using new)
  rw [getLast?_concat] at put
  simpa using put

theorem remove_of_not_mem (lists : c.Lists xs) (outside : id ∉ xs) : c.remove id = c :=
  remove_of_not_linked (by rw [lists.loose id outside])

end Lists

/-! ## Following the links -/

/-- Following a step from a statement on visits the statements of a list, each in its turn, and then
ends. -/
inductive Visits (step : StmtId → Option StmtId) : Option StmtId → List StmtId → Prop where
  | done : Visits step none []
  | visit {id : StmtId} {rest : List StmtId} (more : Visits step (step id) rest) :
      Visits step (some id) (id :: rest)

theorem Visits.walk_eq {step : StmtId → Option StmtId} {start : Option StmtId} {xs : List StmtId}
    (visits : Visits step start xs) {fuel : Nat} (enough : xs.length ≤ fuel) :
    walk step fuel start = xs := by
  induction visits generalizing fuel with
  | done => cases fuel <;> rfl
  | visit _ ih =>
    cases fuel with
    | zero => cases enough
    | succ fuel => rw [walk, ih (Nat.le_of_succ_le_succ enough)]

namespace Lists

variable {c : Chain} {xs before after : List StmtId} {id : StmtId}

theorem visits_after (lists : c.Lists (before ++ after)) :
    Visits (fun id => (c.link id).next) after.head? after := by
  induction after generalizing before with
  | nil => exact .done
  | cons id after ih =>
    refine .visit ?_
    have behind : c.Lists ((before ++ [id]) ++ after) := by simpa using lists
    rw [lists.link before id after rfl]
    exact ih behind

theorem visits_before (lists : c.Lists (before ++ after)) :
    Visits (fun id => (c.link id).prev) before.getLast? before.reverse := by
  induction before using List.reverseRecOn generalizing after with
  | nil => exact .done
  | append_singleton before id ih =>
    rw [getLast?_concat, reverse_concat]
    refine .visit ?_
    have lists' : c.Lists (before ++ id :: after) := by simpa using lists
    rw [lists'.link before id after rfl]
    exact ih lists'

theorem length_le (lists : c.Lists xs) : xs.length ≤ c.links.size := by
  have inside : xs ⊆ range c.links.size := by
    intro id member
    by_contra outside
    have linked := (lists.linked_iff id).mpr member
    rw [mem_range, Nat.not_lt] at outside
    simp [Chain.link, outside] at linked
  simpa using (lists.nodup.subperm inside).length_le

theorem forward_eq (lists : c.Lists (before ++ after)) : c.forward after.head? = after := by
  refine lists.visits_after.walk_eq ?_
  have bound := lists.length_le
  rw [length_append] at bound
  omega

theorem backward_eq (lists : c.Lists (before ++ after)) :
    c.backward before.getLast? = before.reverse := by
  refine lists.visits_before.walk_eq ?_
  have bound := lists.length_le
  rw [length_append] at bound
  rw [length_reverse]
  omega

theorem toList_eq (lists : c.Lists xs) : c.toList = xs := by
  have whole : c.Lists ([] ++ xs) := lists
  rw [Chain.toList, lists.first]
  exact whole.forward_eq

end Lists

end DexLift.Ir.Chain
