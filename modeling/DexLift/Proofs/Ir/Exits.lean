import DexLift.Proofs.Ir.Joining

/-!
# Where control leaves a block

The search for the exit of a block towards another one goes through the body from
the label of the block. It meets no label of another block and does not run past
the end of the block before it comes to a statement that an edge to the other
block leaves, so it finds an exit whenever there is such an edge.
-/

namespace DexLift.Ir

open List EdgeTable

namespace EdgeTable

def noteOpener (opens : Array Bool) : Label → Array Bool
  | .nowhere => opens
  | .number index => opens.setIfInBounds index true

theorem mem_of_noted (labels : List Label) (opens : Array Bool) (index : Nat)
    (noted : (labels.foldl noteOpener opens).getD index false = true) :
    opens.getD index false = true ∨ Label.number index ∈ labels := by
  induction labels generalizing opens with
  | nil => exact .inl noted
  | cons l labels ih =>
    rcases ih _ noted with before | member
    · cases l with
      | nowhere => exact .inl before
      | number i =>
        rw [noteOpener, getD_set] at before
        split at before
        next same => exact .inr (same.1 ▸ mem_cons_self)
        · exact .inl before
    · exact .inr (.tail _ member)

theorem opens_of_opensBlock {m : Method} {l : Label} (opens : (ofMethod m).opensBlock l = true) :
    m.opens l = true := by
  cases l with
  | nowhere => cases opens
  | number index =>
    rcases mem_of_noted (openers m) (Array.replicate m.placed.size false) index opens with
      before | member
    · rw [getD_replicate] at before
      cases before
    · exact contains_iff_mem.mpr member

end EdgeTable

namespace Method

variable {m : Method} {position : Nat} {l : Label} {id : StmtId} {a : Action}

/-! ## The body from a position on -/

/-- The statements from a position on, with their numbers. -/
def stmtsFrom (m : Method) (position : Nat) : List (StmtId × Action) :=
  (m.order.toList.drop position).map fun id => (id, m.action id)

theorem stmtsFrom_cons (here : m.order.toList[position]? = some id) :
    m.stmtsFrom position = (id, m.action id) :: m.stmtsFrom (position + 1) := by
  obtain ⟨inside, same⟩ := List.getElem?_eq_some_iff.mp here
  rw [stmtsFrom, drop_eq_getElem_cons inside, same]
  rfl

theorem Tidy.bodyFrom_eq (tidy : m.Tidy) (here : m.order.toList[position]? = some id) :
    m.bodyFrom id = m.stmtsFrom position := by
  have onward : m.onward id = m.order.toList.drop position := by
    unfold onward
    rw [tidy.plain]
    dsimp only
    obtain ⟨inside, same⟩ := List.getElem?_eq_some_iff.mp here
    have early : ∀ other ∈ m.order.toList.take position, (other != id) = true := by
      intro other member
      obtain ⟨i, found⟩ := mem_iff_getElem?.mp member
      have bound := lt_of_get found
      rw [length_take] at bound
      rw [getElem?_take_of_lt (by omega)] at found
      simp only [bne_iff_ne, ne_eq]
      rintro rfl
      have equal := tidy.order_unique here found
      omega
    calc m.order.toList.dropWhile (· != id)
        = (m.order.toList.take position ++ m.order.toList.drop position).dropWhile (· != id) := by
          rw [take_append_drop]
      _ = (m.order.toList.drop position).dropWhile (· != id) := dropWhile_append_of_pos early
      _ = m.order.toList.drop position := by
          rw [drop_eq_getElem_cons inside, same]
          exact dropWhile_cons_of_neg (by simp)
  rw [bodyFrom, onward, stmtsFrom]

theorem Tidy.bodyAfter_eq (tidy : m.Tidy) (found : m.find? l = some position) :
    ∃ id, m.bodyAfter l = some (id, m.stmtsFrom (position + 1)) := by
  obtain ⟨id, here, label⟩ := exists_order (tidy.find?_eq_some.mp found)
  have placed := tidy.placed_of_label id (mem_of_getElem? here) l label
  refine ⟨id, ?_⟩
  rw [bodyAfter, placed, Option.map_some, tidy.bodyFrom_eq here, stmtsFrom_cons here]
  rfl

theorem Tidy.branchesTo_of_target (tidy : m.Tidy) (found : m.find? l = some position)
    (target : l ∈ a.targets) : m.branchesTo a l = true := by
  obtain ⟨id, here, label⟩ := exists_order (tidy.find?_eq_some.mp found)
  have placed := tidy.placed_of_label id (mem_of_getElem? here) l label
  have branches : a.branches = true := by
    cases a with
    | branch | goto | «switch» => rfl
    | _ => cases target
  have reaches : m.reaches l l = true := by
    unfold reaches
    rw [placed]
    dsimp only
    rw [tidy.bodyFrom_eq here, stmtsFrom_cons here, label, takeWhile_cons_of_pos rfl, any_cons]
    simp [Action.label?]
  rw [branchesTo, branches, Bool.true_and, any_eq_true]
  exact ⟨l, target, reaches⟩

/-! ## What a statement may throw to -/

section

variable (tidy : m.Tidy) (here : m.order.toList[position]? = some id)

include tidy here

theorem Tidy.throwsTo_eq :
    (ofMethod m).throwsTo.getD id [] =
      ((Flow.ofMethod m).exSuccsOf position).filterMap fun h =>
        ((Flow.ofMethod m).order[h]?).map Prod.fst := by
  let handlers (position : Nat) : List StmtId :=
    ((Flow.ofMethod m).exSuccsOf position).filterMap fun h =>
      ((Flow.ofMethod m).order[h]?).map Prod.fst
  let enter (table : Array (List StmtId)) (position : Nat) : Array (List StmtId) :=
    match (Flow.ofMethod m).order[position]? with
    | none => table
    | some (id, _) => table.setIfInBounds id (handlers position)
  have at_ : ∀ {position : Nat} {id : StmtId}, m.order.toList[position]? = some id →
      (Flow.ofMethod m).order[position]? = some (id, m.stmt id) := by
    intro position id here
    have same : m.body[position]? = some (id, m.stmt id) := by
      rw [body, getElem?_map, here, Option.map_some]
    simpa [Flow.ofMethod] using same
  have prefixes : ∀ count ≤ m.order.toList.length,
      ((range count).foldl enter (Array.replicate m.stmts.size [])).size = m.stmts.size ∧
        ∀ position < count, ∀ id, m.order.toList[position]? = some id →
          ((range count).foldl enter (Array.replicate m.stmts.size [])).getD id [] =
            handlers position := by
    intro count le
    induction count with
    | zero => exact ⟨by simp, fun position less => absurd less (Nat.not_lt_zero _)⟩
    | succ count ih =>
      obtain ⟨size, entries⟩ := ih (Nat.le_of_succ_le le)
      have last := getElem?_eq_getElem (Nat.lt_of_succ_le le)
      rw [range_succ, foldl_append, foldl_cons, foldl_nil]
      have step : ∀ table, enter table count =
          table.setIfInBounds m.order.toList[count] (handlers count) := by
        intro table
        simp only [enter, at_ last]
      rw [step]
      refine ⟨by rw [Array.size_setIfInBounds, size], ?_⟩
      intro position less id here
      have known := tidy.made id (mem_of_getElem? here)
      rw [getD_set, size]
      split
      next same =>
        rw [← same.1] at last
        rw [tidy.order_unique here last]
      next different =>
        have early : position < count := by grind
        exact entries position early id here
  have bound := lt_of_get here
  have all := (prefixes _ le_rfl).2 position bound id here
  have size : (Flow.ofMethod m).size = m.order.toList.length := by simp
  rwa [← size] at all

theorem Tidy.mayThrowTo {header : Nat} (found : m.find? l = some header)
    (edge : header ∈ (Flow.ofMethod m).exSuccsOf position) :
    (ofMethod m).mayThrowTo m id l = true := by
  obtain ⟨place, there, label⟩ := exists_order (tidy.find?_eq_some.mp found)
  have placed := tidy.placed_of_label place (mem_of_getElem? there) l label
  have same : m.body[header]? = some (place, m.stmt place) := by
    rw [body, getElem?_map, there, Option.map_some]
  unfold EdgeTable.mayThrowTo
  rw [placed]
  dsimp only
  rw [tidy.throwsTo_eq here, contains_iff_mem, mem_filterMap]
  exact ⟨header, edge, by simpa [Flow.ofMethod] using congrArg (Option.map Prod.fst) same⟩

end

/-! ## The search -/

theorem block_of_closed {first last : Nat} (le : first ≤ last) (bound : last ≤ m.actions.length)
    (closed : ∀ i l, first ≤ i → i < last → m.actions[i]? = some (.label l) → m.opens l = false) :
    (m.standing last).block = (m.standing first).block ∨ (m.standing last).block = .nowhere := by
  obtain ⟨count, rfl⟩ := Nat.exists_eq_add_of_le le
  clear le
  induction count with
  | zero => exact .inl rfl
  | succ count ih =>
    have before := ih (by omega) fun i l low high => closed i l low (by omega)
    obtain ⟨a, found⟩ : ∃ a, m.actions[first + count]? = some a :=
      ⟨_, getElem?_eq_getElem (by omega)⟩
    rw [← Nat.add_assoc, standing_succ found]
    cases label : a.label? with
    | none =>
      rw [pass_of_plain _ label]
      split
      · exact .inr rfl
      · exact before
    | some l =>
      rw [Action.label?_eq_some] at label
      subst label
      rwa [Standing.pass, closed _ l (by omega) (by omega) found]

section Search

variable {start : Nat}

section

variable (tidy : m.Tidy) (inside : m.InBlock l position) (lt : position < m.actions.length)
  (place : m.find? l = some start)

include tidy inside lt place

theorem InBlock.standing_block {i : Nat} (low : start < i) (high : i ≤ position + 1) :
    (m.standing i).block = l := by
  have closed := block_of_closed (m := m) high lt fun j other low' high' label =>
    inside.closed tidy lt place (by omega) (by omega) label
  have block := inside.block
  rw [blockAt_eq_standing] at block
  rw [block] at closed
  rcases closed with same | none
  · exact same.symm
  · exact absurd none (tidy.ne_nowhere place)

theorem InBlock.not_ended {i : Nat} (low : start < i) (high : i ≤ position)
    (found : m.actions[i]? = some a) (plain : a.label? = none) : (m.standing i).ended = false := by
  have next := inside.standing_block tidy lt place (Nat.lt_succ_of_lt low) (Nat.succ_le_succ high)
  rw [standing_succ found, pass_of_plain _ plain] at next
  split at next
  · exact absurd next.symm (tidy.ne_nowhere place)
  next open_ => simpa using open_

end

variable {succ : Label} {exceptional : Bool}

theorem InBlock.findExit_step (tidy : m.Tidy) (inside : m.InBlock l position)
    (lt : position < m.actions.length) (place : m.find? l = some start) {i : Nat} (low : start < i)
    (high : i ≤ position) (runs : m.RunsOn i)
    (later : ∀ last, (findExit (ofMethod m) m succ exceptional (m.stmtsFrom (i + 1)) last
      (m.standing (i + 1)).ended).isSome = true) (last : StmtId) :
    (findExit (ofMethod m) m succ exceptional (m.stmtsFrom i) last
      (m.standing i).ended).isSome = true := by
  obtain ⟨a, found, falls⟩ := runs
  obtain ⟨id, here, rfl⟩ := exists_order found
  rw [stmtsFrom_cons here]
  unfold findExit
  cases label : (m.action id).label? with
  | some other =>
    have isLabel := Action.label?_eq_some.mp label
    rw [isLabel] at found
    have closed := inside.closed tidy lt place low high found
    have shut : (ofMethod m).opensBlock other = false := by
      rw [← Bool.not_eq_true]
      intro opens
      rw [opens_of_opensBlock opens] at closed
      cases closed
    have same : m.standing (i + 1) = m.standing i := by
      rw [standing_succ found]
      simp [Standing.pass, closed]
    dsimp only
    split
    · rfl
    · rw [shut, ← same]
      exact later last
  | none =>
    have open_ := inside.not_ended tidy lt place low high found label
    have ended : (m.standing (i + 1)).ended = (m.action id).endsBlock := by
      rw [standing_succ found, pass_of_plain _ label, open_]
      rfl
    dsimp only
    rw [open_]
    simp only [Bool.false_eq_true, if_false, falls, Bool.not_true]
    split
    · rfl
    · split
      · rfl
      · rw [← ended]
        exact later id

theorem Tidy.exit?_of_edge (tidy : m.Tidy) (inside : m.InBlock l position) {header : Nat}
    (label : m.actions[header]? = some (.label succ))
    (edge : header ∈ m.edgesOf exceptional position) :
    ((ofMethod m).exit? m l succ exceptional).isSome = true := by
  have goal := tidy.find?_eq_some.mpr label
  have way := (tidy.mem_edgesOf label).mp edge
  have lt : position < m.actions.length := by
    rcases way with ⟨a, found, -⟩ | ⟨-, -, a, found, -⟩
    all_goals exact lt_of_get found
  obtain ⟨start, place, le, runs⟩ := inside.runs
  have isLabel := tidy.find?_eq_some.mp place
  have opens := inside.opens tidy lt
  have first : m.standing (start + 1) = ⟨l, false⟩ := by
    rw [standing_succ isLabel]
    simp [Standing.pass, opens]
  -- From the place where the edge leaves, back to the label of the block.
  have back : ∀ stop, start < stop → stop ≤ position + 1 →
      (∀ i, start < i → i < stop → m.RunsOn i) →
      (∀ last, (findExit (ofMethod m) m succ exceptional (m.stmtsFrom stop) last
        (m.standing stop).ended).isSome = true) →
      ∀ last, (findExit (ofMethod m) m succ exceptional (m.stmtsFrom (start + 1)) last
        (m.standing (start + 1)).ended).isSome = true := by
    intro stop less bound
    obtain ⟨count, rfl⟩ := Nat.exists_eq_add_of_lt less
    clear less
    induction count with
    | zero => exact fun _ found => found
    | succ count ih =>
      intro runs found
      refine ih (by omega) (fun i low high => runs i low (by omega)) ?_
      exact inside.findExit_step tidy lt place (by omega) (by omega)
        (runs _ (by omega) (by omega)) found
  obtain ⟨id, after⟩ := tidy.bodyAfter_eq place
  have ended : (m.standing (start + 1)).ended = false := by rw [first]
  rw [exit?, after]
  show (findExit _ m succ exceptional (m.stmtsFrom (start + 1)) id false).isSome = true
  rw [← ended]
  rcases way with transfers | ⟨normal, rfl, runsOn⟩
  · have transfer := transfers
    obtain ⟨a, found, way⟩ := transfer
    have plain := transfers.plain found
    have behind : start < position := by
      refine Nat.lt_of_le_of_ne le ?_
      rintro rfl
      rw [isLabel] at found
      cases found
      cases plain
    refine back position behind (Nat.le_succ _) (fun i low high => runs i (Nat.le_of_lt low) high)
      ?_ id
    intro last
    obtain ⟨source, here, rfl⟩ := exists_order found
    have open_ := inside.not_ended tidy lt place behind le_rfl found plain
    rw [stmtsFrom_cons here, open_]
    unfold findExit
    rw [plain]
    dsimp only
    cases exceptional with
    | true =>
      rw [tidy.mayThrowTo here goal edge]
      rfl
    | false =>
      simp only [Bool.false_eq_true, if_false] at way
      rw [tidy.branchesTo_of_target goal way]
      rfl
  · refine back (position + 1) (by omega) le_rfl ?_ ?_ id
    · intro i low high
      rcases Nat.lt_succ_iff_lt_or_eq.mp high with high | rfl
      · exact runs i (Nat.le_of_lt low) high
      · exact runsOn
    · intro last
      obtain ⟨other, here, isSucc⟩ := exists_order label
      rw [stmtsFrom_cons here, isSucc, normal]
      unfold findExit
      simp [Action.label?]

end Search

end Method

end DexLift.Ir
