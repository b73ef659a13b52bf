import DexLift.Proofs.Ir.Checking
import DexLift.Proofs.Ir.Sifted

/-!
# Writing expressions where locals are read

A table says what stands for each local: another local, or a constant. Writing
these where the locals are read changes neither the shape of a statement nor what
it computes, as long as what stands for a local has the value of the local.
-/

namespace DexLift.Ir

open List Ir.Action

/-! ## Expressions -/

variable {es : List Expr} {e : Expr} {l x : LocalId} {a : Action} {m : Method}

abbrev Readings := LocalId → Expr

/-- Nothing that stands for a local can throw, has an operand that is not evaluated, or is the
exception that was caught; and constants have no operands. -/
structure Readings.Plain (table : Readings) : Prop where
  proper : ∀ l, (table l).Proper
  quiet : ∀ l, (table l).canThrow = false
  received : ∀ l, (table l).receives = false
  constants : ∀ l type value args, table l = .node (.const type value) args → args = []

theorem Readings.plain_read (f : LocalId → LocalId) : Readings.Plain fun l => .read (f l) :=
  ⟨fun _ => .leaf rfl, fun _ => rfl, fun _ => rfl, fun _ _ _ _ same => nomatch same⟩

namespace Expr

/-- The expression with what stands for locals in place of reads. -/
def mapReads (table : Readings) : Expr → Expr :=
  mapNodes fun e => (e.local?.map table).getD e

section

variable {table : Readings} {head : Head} {args : List Expr}

theorem any_congr_mem {p q : Expr → Bool} (same : ∀ e ∈ es, p e = q e) : es.any p = es.any q := by grind

theorem mapReads_inner (inner : head.isLeaf = false) :
    mapReads table (.node head args) = .node head (args.map (mapReads table)) := by
  unfold mapReads
  rw [mapNodes, mapNodesOf_eq]
  · cases head <;> first | rfl | cases inner
  · rintro rfl
    cases inner

theorem mapReads_of_isMissing (missing : e.isMissing = true) : mapReads table e = e := by
  obtain ⟨head, args⟩ := e
  have same : head = .missing := by simpa [isMissing, Expr.head] using missing
  rw [same, mapReads, mapNodes]

namespace Proper

variable {e : Expr} (proper : e.Proper)

include proper

theorem uses_mapReads (table : Readings) :
    (e.mapReads table).uses = e.uses.flatMap fun l => (table l).uses := by
  induction proper with
  | @leaf head isLeaf =>
    cases head with
    | read l => exact (append_nil _).symm
    | missing | caught | this | param => rfl
    | _ => cases isLeaf
  | inner inner _ ih =>
    rw [mapReads_inner inner, uses_inner inner, uses_inner inner, flatMap_map, flatMap_assoc]
    exact flatMap_congr ih

variable {table : Readings} (plain : table.Plain)

include plain

theorem mapReads : (e.mapReads table).Proper := by
  induction proper with
  | @leaf head isLeaf =>
    cases head with
    | read l => exact plain.proper l
    | missing | caught | this | param => exact .leaf isLeaf
    | _ => cases isLeaf
  | inner inner _ ih =>
    rw [mapReads_inner inner]
    refine .inner inner fun changed member => ?_
    obtain ⟨original, listed, rfl⟩ := mem_map.mp member
    exact ih original listed

theorem canThrow_mapReads : (e.mapReads table).canThrow = e.canThrow := by
  induction proper with
  | @leaf head isLeaf =>
    cases head with
    | read l => exact plain.quiet l
    | missing | caught | this | param => rfl
    | _ => cases isLeaf
  | inner inner _ ih =>
    rw [mapReads_inner inner, canThrow_inner inner, canThrow_inner inner, any_map]
    exact congrArg _ (any_congr_mem ih)

theorem receives_mapReads : (e.mapReads table).receives = e.receives := by
  induction proper with
  | @leaf head isLeaf =>
    cases head with
    | read l => exact plain.received l
    | missing | caught | this | param => rfl
    | _ => cases isLeaf
  | inner inner _ ih =>
    rw [mapReads_inner inner, receives_inner inner, receives_inner inner, any_map]
    exact any_congr_mem ih

end Proper

end

end Expr

section Evaluating

variable {V : Type} {w : World V} {env other : Env V} {caught received : Option V}
  {history : History V} {table : Readings}

theorem Expr.Proper.evaluate_mapReads (proper : e.Proper)
    (reads : ∀ l ∈ e.uses, ∀ v, env l = some v → ∀ history,
      evaluate w other received history (table l) = some (history, .ok v))
    (mentions : ∀ v, caught = some v → received = some v) {r : History V × Except V V}
    (done : evaluate w env caught history e = some r) :
    evaluate w other received history (e.mapReads table) = some r := by
  induction proper generalizing history r with
  | @leaf head isLeaf =>
    cases head with
    | read l =>
      rw [Expr.leaf, evaluate, Option.map_eq_some_iff] at done
      obtain ⟨v, set, rfl⟩ := done
      exact reads l (mem_singleton.mpr rfl) v set history
    | caught type desc =>
      show evaluate w other received history (.leaf (.caught type desc)) = some r
      rw [Expr.leaf, evaluate, Option.map_eq_some_iff] at done ⊢
      obtain ⟨v, set, rfl⟩ := done
      exact ⟨v, mentions v set, rfl⟩
    | missing | this | param => exact done
    | _ => cases isLeaf
  | @inner head args inner _ ih =>
    rw [uses_inner inner] at reads
    rw [mapReads_inner inner]
    rw [evaluate_inner inner] at done ⊢
    refine andThen_mono done (fun r values => ?_) fun _ _ _ done => done
    have each : ∀ {es : List Expr}, es ⊆ args → ∀ {history r},
        evaluateAll w env caught history es = some r →
        evaluateAll w other received history (es.map (Expr.mapReads table)) = some r := by
      intro es sub
      induction es with
      | nil => exact fun done => done
      | cons e rest restHypothesis =>
        intro history r done
        rw [map_cons, evaluateAll_cons]
        rw [evaluateAll_cons] at done
        refine andThen_mono done (fun r first => ?_) fun history v r more => ?_
        · exact ih e (sub mem_cons_self)
            (fun l read => reads l (mem_flatMap.mpr ⟨e, sub mem_cons_self, read⟩)) first
        · exact andThen_mono more (fun r others =>
            restHypothesis (subset_of_cons_subset sub) others) fun _ _ _ done => done
    exact each (Subset.refl _) values

theorem evaluateAll_mapReads (proper : ∀ e ∈ es, e.Proper)
    (reads : ∀ l ∈ es.flatMap Expr.uses, ∀ v, env l = some v → ∀ history,
      evaluate w other received history (table l) = some (history, .ok v))
    (mentions : ∀ v, caught = some v → received = some v) {r : History V × Except V (List V)}
    (done : evaluateAll w env caught history es = some r) :
    evaluateAll w other received history (es.map (Expr.mapReads table)) = some r := by
  induction es generalizing history r with
  | nil => exact done
  | cons e rest ih =>
    rw [map_cons, evaluateAll_cons]
    rw [evaluateAll_cons] at done
    refine andThen_mono done (fun r first => ?_) fun history v r more => ?_
    · exact (proper e mem_cons_self).evaluate_mapReads
        (fun l read => reads l (mem_flatMap.mpr ⟨e, mem_cons_self, read⟩)) mentions first
    · exact andThen_mono more (fun r others => ih (fun e member => proper e (.tail _ member))
        (fun l read => reads l (by
          rw [flatMap_cons]
          exact mem_append_right _ read)) others) fun _ _ _ done => done

end Evaluating

/-! ## Statements -/

namespace Action

/-- The statement with what stands for locals in place of reads, and other locals in place of those
a join picks from. -/
def mapReads (table : Readings) (pick : LocalId → LocalId) : Action → Action
  | .phi target args => .phi target (args.map fun a => { a with value := pick a.value })
  | a => a.mapOperands (Expr.mapReads table)

/-- A store that writes to a place and not to the value of a local. -/
def HasPlace (a : Action) : Prop := ∀ l, a.KeepsPlace l

section

variable (table : Readings) (pick : LocalId → LocalId) (a : Action)

@[simp] theorem label?_mapReads : (a.mapReads table pick).label? = a.label? := by cases a <;> rfl

@[simp] theorem isPhi_mapReads : (a.mapReads table pick).isPhi = a.isPhi := by cases a <;> rfl

@[simp] theorem targets_mapReads : (a.mapReads table pick).targets = a.targets := by cases a <;> rfl

@[simp] theorem fallsThrough_mapReads :
    (a.mapReads table pick).fallsThrough = a.fallsThrough := by cases a <;> rfl

@[simp] theorem endsBlock_mapReads : (a.mapReads table pick).endsBlock = a.endsBlock := by
  cases a <;> rfl

@[simp] theorem defines?_mapReads : (a.mapReads table pick).defines? = a.defines? := by
  cases a <;> rfl

theorem phiArgs_mapReads : (a.mapReads table pick).phiArgs =
    a.phiArgs.map fun arg => { arg with value := pick arg.value } := by
  cases a <;> rfl

theorem parts_mapReads : (a.mapReads table pick).parts = a.parts.map (Expr.mapReads table) := by
  have whole : ∀ e : Expr,
      (if e.isMissing then e else Expr.mapReads table e) = Expr.mapReads table e := by
    intro e
    split
    next missing => exact (Expr.mapReads_of_isMissing missing).symm
    · rfl
  cases a with
  | branch cond left right target => cases right <;> simp [mapReads, mapOperands, parts, whole]
  | «return» v => cases v <;> simp [mapReads, mapOperands, parts, whole]
  | _ => simp [mapReads, mapOperands, parts, whole]

theorem mapReads_store (place value : Expr) : (store place value).mapReads table pick =
    .store (place.mapReads table) (value.mapReads table) := by
  have same := parts_mapReads table pick (.store place value)
  simp only [mapReads, mapOperands, parts, map_cons, map_nil, cons.injEq, and_true] at same ⊢
  rw [same.1, same.2]

theorem eq_identity_of_mapReads {a : Action} (same : a.mapReads table pick = .identity l e) :
    ∃ value, a = .identity l value ∧ e = value.mapReads table := by
  have parts := parts_mapReads table pick a
  cases a with
  | identity target value =>
    rw [same] at parts
    obtain rfl : target = l := Option.some.inj (congrArg defines? same)
    exact ⟨value, rfl, head_eq_of_cons_eq parts⟩
  | _ => cases same

theorem eq_assign_of_mapReads {a : Action} (same : a.mapReads table pick = .assign l e) :
    ∃ value, a = .assign l value ∧ e = value.mapReads table := by
  have parts := parts_mapReads table pick a
  cases a with
  | assign target value =>
    rw [same] at parts
    obtain rfl : target = l := Option.some.inj (congrArg defines? same)
    exact ⟨value, rfl, head_eq_of_cons_eq parts⟩
  | _ => cases same

theorem picked_mapReads (origin : Label × Bool) :
    Method.picked origin (a.mapReads table pick).phiArgs =
      (Method.picked origin a.phiArgs).map fun arg => { arg with value := pick arg.value } := by
  rw [phiArgs_mapReads, Method.picked, find?_map]
  rfl

end

namespace Proper

variable {a : Action} (proper : a.Proper) (table : Readings) (pick : LocalId → LocalId)

include proper

theorem uses_mapReads : (a.mapReads table pick).uses = a.uses.flatMap fun l => (table l).uses := by
  rw [uses_eq, uses_eq, parts_mapReads, flatMap_map, flatMap_assoc]
  exact flatMap_congr fun e member => (proper e member).uses_mapReads table

theorem place_mapReads {place value : Expr} (stores : a = .store place value)
    (hasPlace : a.HasPlace) : (place.mapReads table).head = place.head ∧
      (place.mapReads table).args = place.args.map (Expr.mapReads table) := by
  subst stores
  cases proper place mem_cons_self with
  | @leaf head isLeaf =>
    cases head with
    | read l => exact absurd rfl (hasPlace l _ _ rfl)
    | missing | caught | this | param => exact ⟨rfl, rfl⟩
    | _ => cases isLeaf
  | inner inner =>
    rw [Expr.mapReads_inner inner]
    exact ⟨rfl, rfl⟩

theorem hasPlace_mapReads (hasPlace : a.HasPlace) : (a.mapReads table pick).HasPlace := by
  intro l place value same read
  cases a with
  | store old stored =>
    rw [mapReads_store] at same
    obtain ⟨rfl, -⟩ := store.inj same
    obtain ⟨head, -⟩ := proper.place_mapReads table rfl hasPlace
    rw [read] at head
    refine hasPlace l old stored rfl ?_
    cases proper old mem_cons_self with
    | leaf => exact congrArg Expr.leaf head.symm
    | inner inner =>
      obtain rfl : Head.read l = _ := head
      cases inner
  | _ => cases same

theorem inputs_mapReads (hasPlace : a.HasPlace) :
    (a.mapReads table pick).inputs = a.inputs.map (Expr.mapReads table) := by
  by_cases stores : ∃ place value, a = .store place value
  · obtain ⟨place, value, same⟩ := stores
    obtain ⟨-, operands⟩ := proper.place_mapReads table same hasPlace
    subst same
    rw [mapReads_store, inputs, inputs, operands, map_append]
    rfl
  · have plain : ∀ place value, a ≠ .store place value :=
      fun place value same => stores ⟨place, value, same⟩
    have changed : ∀ place value, a.mapReads table pick ≠ .store place value := by
      cases a with
      | store place value => exact absurd rfl (plain place value)
      | _ =>
        intro place value contrary
        cases contrary
    rw [inputs_eq_parts plain, inputs_eq_parts changed, parts_mapReads]

theorem conclude_mapReads {V : Type} {w : World V} (hasPlace : a.HasPlace) (history : History V)
    (values : List V) :
    (a.mapReads table pick).conclude w history values = a.conclude w history values := by
  cases a with
  | store place value =>
    obtain ⟨same, -⟩ := proper.place_mapReads table rfl hasPlace
    rw [mapReads_store, conclude, conclude, same]
  | assign | identity | «switch» => cases values <;> rfl
  | _ => rfl

variable {table} (plain : table.Plain)

include plain

theorem mapReads : (a.mapReads table pick).Proper := by
  intro e member
  rw [parts_mapReads] at member
  obtain ⟨original, listed, rfl⟩ := mem_map.mp member
  exact (proper original listed).mapReads plain

theorem canThrow_mapReads : (a.mapReads table pick).canThrow = a.canThrow := by
  cases reader : a.isReader with
  | false => cases a <;> first | rfl | cases reader
  | true =>
    have stillReader : (a.mapReads table pick).isReader = true := by
      cases a <;> exact reader
    have sameDemands : (a.mapReads table pick).demands = a.demands := by
      cases a <;> rfl
    rw [canThrow_eq stillReader, canThrow_eq reader, sameDemands, parts_mapReads, any_map]
    exact congrArg _ (Expr.any_congr_mem fun e member =>
      (proper e member).canThrow_mapReads plain)

theorem sameForm_mapReads : a.SameForm (a.mapReads table pick) where
  label := label?_mapReads ..
  isPhi := isPhi_mapReads ..
  targets := targets_mapReads ..
  falls := fallsThrough_mapReads ..
  ends := endsBlock_mapReads ..
  defines := defines?_mapReads ..
  throws := by
    rw [proper.canThrow_mapReads pick plain]
    exact id
  ways := by
    rw [phiArgs_mapReads, map_map]
    rfl

end Proper

end Action

theorem Expr.Proper.mapReads_self (proper : e.Proper) : e.mapReads .read = e := by
  induction proper with
  | @leaf head isLeaf =>
    cases head with
    | read | missing | caught | this | param => rfl
    | _ => cases isLeaf
  | inner inner _ ih =>
    rw [Expr.mapReads_inner inner, map_congr_left ih, map_id']

theorem Action.Proper.mapReads_self (proper : a.Proper) : a.mapReads .read id = a := by
  have part : ∀ e ∈ a.parts, (if e.isMissing then e else e.mapReads .read) = e := by
    intro e member
    rw [(proper e member).mapReads_self, ite_self]
  cases a with
  | phi target args => exact congrArg (Action.phi target) (map_id' args)
  | label | goto | nop => rfl
  | branch cond left right target =>
    cases right <;> simp_all [Action.mapReads, mapOperands, parts]
  | «return» v => cases v <;> simp_all [Action.mapReads, mapOperands, parts]
  | _ => simp_all [Action.mapReads, mapOperands, parts]

theorem Expr.Proper.mapNodes_eq (proper : e.Proper) (known : LocalId → Option Expr) :
    e.mapNodes (fun e => (e.local?.bind known).getD e) =
      e.mapReads fun l => (known l).getD (.read l) := by
  induction proper with
  | @leaf head isLeaf =>
    cases head with
    | read | missing | caught | this | param => rfl
    | _ => cases isLeaf
  | @inner head args inner _ ih =>
    rw [Expr.mapReads_inner inner, ← map_congr_left ih, mapNodes, mapNodesOf_eq]
    · cases head <;> first | rfl | cases inner
    · rintro rfl
      cases inner

theorem Action.Proper.mapOperands_eq (proper : a.Proper) (known : LocalId → Option Expr) :
    a.mapOperands (Expr.mapNodes fun e => (e.local?.bind known).getD e) =
      a.mapReads (fun l => (known l).getD (.read l)) id := by
  have part : ∀ e ∈ a.parts, e.mapNodes (fun e => (e.local?.bind known).getD e) =
      e.mapReads fun l => (known l).getD (.read l) := fun e member => (proper e member).mapNodes_eq known
  cases a with
  | phi target args => exact congrArg (Action.phi target) (map_id' args).symm
  | label | goto | nop => rfl
  | branch cond left right target =>
    cases right <;> simp_all [Action.mapReads, mapOperands, parts]
  | «return» v => cases v <;> simp_all [Action.mapReads, mapOperands, parts]
  | _ => simp_all [Action.mapReads, mapOperands, parts]

/-- Whether a statement stores to a place only, and assigns constants without operands only. -/
def Action.isRegular : Action → Bool
  | .store (.node (.read _) _) _ => false
  | .assign _ (.node (.const ..) args) => args.isEmpty
  | _ => true

/-! ## Methods -/

namespace Method

/-- A method in static single assignment whose parts fit together. -/
structure InSsa (m : Method) : Prop where
  tidy : m.Tidy
  proper : m.Proper
  single : m.SingleAssignment
  whole : m.JoinsWhole
  places : ∀ a ∈ m.actions, a.HasPlace
  known : ∀ a ∈ m.actions, ∀ x, a.defines? = some x → x < m.locals.size
  constants : ∀ x type value args, .assign x (.node (.const type value) args) ∈ m.actions → args = []

theorem InSsa.eq_of_defines (inSsa : m.InSsa) {id other : StmtId} (linked : id ∈ m.order.toList)
    (linkedOther : other ∈ m.order.toList) (defines : (m.action id).defines? = some x)
    (definesOther : (m.action other).defines? = some x) : id = other := by
  obtain ⟨position, here⟩ := mem_iff_getElem?.mp linked
  obtain ⟨place, there⟩ := mem_iff_getElem?.mp linkedOther
  have same := inSsa.single.once position place _ _ x (getElem?_actions here)
    (getElem?_actions there) defines definesOther
  subst same
  exact Option.some.inj (here.symm.trans there)

theorem Noted.inSsa {notes : Nat → Note} (noted : m.Noted notes) (tidy : m.Tidy) (proper : m.Proper)
    (picks : ∀ position < m.actions.length, ∀ a ∈ m.actions[position]?, a.isPhi = true →
      ∀ way ∈ (notes position).ways,
        (picked way.1 a.phiArgs).any (fun arg => arg.pred != .nowhere) = true)
    (regular : ∀ a ∈ m.actions, a.isRegular = true)
    (known : ∀ a ∈ m.actions, ∀ x ∈ a.defines?, x < m.locals.size) : m.InSsa where
  tidy := tidy
  proper := proper
  single := noted.singleAssignment
  whole := by
    intro position target args assigned entered origin found trail
    obtain ⟨-, way, listed, rfl, -⟩ := noted.holds trail
    obtain ⟨arg, picked, named⟩ := (Option.any_eq_true _ _).mp
      (picks position (lt_of_get found) _ found rfl way listed)
    exact ⟨arg, picked, by simpa using named⟩
  places := by
    rintro a listed l place value rfl rfl
    cases regular _ listed
  known := known
  constants := by
    intro x type value args listed
    exact isEmpty_iff.mp (regular _ listed)

/-- One method is another with quiet statements taken out and other expressions where locals are
read. -/
structure Rewrites (m n : Method) (keep : StmtId → Bool) (table : Readings)
    (pick : LocalId → LocalId) : Prop where
  tidy : n.Tidy
  order : n.order.toList = m.order.toList.filter keep
  traps : n.traps = m.traps
  size : n.locals.size = m.locals.size
  action : ∀ id ∈ n.order.toList, n.action id = (m.action id).mapReads table pick
  quiet : ∀ id ∈ m.order.toList, keep id = false → (m.action id).isQuiet = true
  plain : table.Plain

section

variable {m : Method} (inSsa : m.InSsa) {gone : StmtId → Bool}
  (quiet : ∀ id ∈ m.order.toList, gone id = true → (m.action id).isQuiet = true)

include inSsa quiet

theorem InSsa.rewrites_removeWhere : m.Rewrites (m.removeWhere gone) (fun id => !gone id) .read id := by
  obtain ⟨placed, size, equal, -⟩ := removeWhere_with inSsa.tidy gone
  have order : (m.removeWhere gone).order.toList = m.order.toList.filter fun id => !gone id := by
    rw [equal, Array.toList_filter]
  refine ⟨inSsa.tidy.removeWhere gone, order, by rw [equal], by rw [equal], fun id member => ?_,
    fun id member goes => quiet id member (by simpa using goes), Readings.plain_read id⟩
  rw [order] at member
  have found : m.action id ∈ m.actions :=
    mem_map_of_mem (mem_of_mem_filter member)
  rw [(inSsa.proper.operands _ found).mapReads_self, equal]
  rfl

theorem InSsa.rewrites_mapActions {table : Readings} (plain : table.Plain)
    (pick : LocalId → LocalId) {change : Action → Action}
    (labels : ∀ a, (change a).label? = a.label?)
    (changes : ∀ a ∈ m.actions, change a = a.mapReads table pick) :
    m.Rewrites ((m.removeWhere gone).mapActions change) (fun id => !gone id) table pick := by
  obtain ⟨placed, size, equal, -⟩ := removeWhere_with inSsa.tidy gone
  have tidy := inSsa.tidy.removeWhere gone
  obtain ⟨stmts, sizeStmts, changed, each⟩ := mapActions_with tidy change
  have order : (m.removeWhere gone).order.toList = m.order.toList.filter fun id => !gone id := by
    rw [equal, Array.toList_filter]
  have sameOrder : ((m.removeWhere gone).mapActions change).order = (m.removeWhere gone).order := by
    rw [changed]
  refine ⟨tidy.mapActions labels, by rw [sameOrder, order], by rw [changed, equal],
    by rw [changed, equal], fun id member => ?_,
    fun id member goes => quiet id member (by simpa using goes), plain⟩
  rw [sameOrder] at member
  rw [each, if_pos member]
  rw [order] at member
  have same : (m.removeWhere gone).action id = m.action id := by
    rw [equal]
    rfl
  rw [same]
  exact changes _ (mem_map_of_mem (mem_of_mem_filter member))

end

namespace Rewrites

variable {m n : Method} {keep : StmtId → Bool} {table : Readings} {pick : LocalId → LocalId}
  (rewrites : m.Rewrites n keep table pick)

include rewrites

theorem mem_actions {id : StmtId} (member : id ∈ n.order.toList) :
    m.action id ∈ m.actions ∧ keep id = true := by
  rw [rewrites.order] at member
  exact ⟨mem_map_of_mem (mem_of_mem_filter member), (mem_filter.mp member).2⟩

theorem exists_action {b : Action} (member : b ∈ n.actions) :
    ∃ id ∈ n.order.toList, m.action id ∈ m.actions ∧ b = (m.action id).mapReads table pick := by
  obtain ⟨id, listed, rfl⟩ := mem_map.mp member
  exact ⟨id, listed, (rewrites.mem_actions listed).1, rewrites.action id listed⟩

variable (inSsa : m.InSsa)

include inSsa

theorem sifts : m.Sifts n keep where
  tidy := inSsa.tidy
  tidyTarget := rewrites.tidy
  order := rewrites.order
  traps := rewrites.traps
  silent id member goes := plain_of_isQuiet (rewrites.quiet id member goes)
  form id member := by
    rw [rewrites.action id member]
    exact (inSsa.proper.operands _ (rewrites.mem_actions member).1).sameForm_mapReads pick
      rewrites.plain

/-- What the statements that stay read and pick is there, when what stands for a local that was
assigned or entered with is. -/
theorem backed
    (reads : ∀ (position : Nat) (id : StmtId) (assigned entered : List LocalId)
      (origin : Label × Bool), m.order.toList[position]? = some id → keep id = true →
      m.Trail position assigned origin entered → ∀ x ∈ (m.action id).uses, x ∈ assigned →
        ∀ y ∈ (table x).uses, m.Survives keep y ∧ y ∈ assigned)
    (picks : ∀ (position : Nat) (id : StmtId) (assigned entered : List LocalId)
      (origin : Label × Bool), m.order.toList[position]? = some id → keep id = true →
      m.Trail position assigned origin entered → ∀ arg,
        picked origin (m.action id).phiArgs = some arg → arg.value ∈ entered →
          m.Survives keep (pick arg.value) ∧ pick arg.value ∈ entered) :
    m.Backed n keep := by
  have action : ∀ {position id}, m.order.toList[position]? = some id → keep id = true →
      n.action id = (m.action id).mapReads table pick := fun here stays =>
    rewrites.action _ (mem_of_getElem? ((rewrites.sifts inSsa).thins.at_rank here stays))
  constructor
  · intro position id assigned entered origin here stays trail y read
    have found := getElem?_actions (m := m) here
    rw [action here stays, (inSsa.proper.operands _ (mem_of_getElem? found)).uses_mapReads] at read
    obtain ⟨x, used, named⟩ := mem_flatMap.mp read
    exact reads position id assigned entered origin here stays trail x used
      (inSsa.single.reads position _ x found used assigned trail.path) y named
  · intro position id assigned entered origin here stays trail arg picked_
    have found := getElem?_actions (m := m) here
    rw [action here stays, picked_mapReads, Option.map_eq_some_iff] at picked_
    obtain ⟨old, picked_, rfl⟩ := picked_
    refine picks position id assigned entered origin here stays trail old picked_ ?_
    cases single : m.action id with
    | phi target args =>
      rw [single] at picked_ found
      exact inSsa.single.joins position target args old _ _ _ found trail picked_
    | _ =>
      rw [single] at picked_
      cases picked_

theorem inSsa_target (backed : m.Backed n keep) : n.InSsa where
  tidy := rewrites.tidy
  proper := by
    refine ⟨fun b member => ?_, fun l e member => ?_, fun l e member => ?_⟩
    · obtain ⟨id, -, listed, rfl⟩ := rewrites.exists_action member
      exact (inSsa.proper.operands _ listed).mapReads pick rewrites.plain
    · obtain ⟨id, -, listed, same⟩ := rewrites.exists_action member
      obtain ⟨value, action, rfl⟩ := eq_identity_of_mapReads _ _ same.symm
      rw [action] at listed
      have proper := inSsa.proper.operands _ listed value mem_cons_self
      rw [proper.canThrow_mapReads rewrites.plain]
      exact inSsa.proper.names l value listed
    · obtain ⟨id, -, listed, same⟩ := rewrites.exists_action member
      obtain ⟨value, action, rfl⟩ := eq_assign_of_mapReads _ _ same.symm
      rw [action] at listed
      have proper := inSsa.proper.operands _ listed value mem_cons_self
      rw [proper.receives_mapReads rewrites.plain]
      exact inSsa.proper.received l value listed
  single := (rewrites.sifts inSsa).singleAssignment inSsa.whole inSsa.single backed
  whole := (rewrites.sifts inSsa).joinsWhole inSsa.whole
  places := by
    intro b member
    obtain ⟨id, -, listed, rfl⟩ := rewrites.exists_action member
    exact (inSsa.proper.operands _ listed).hasPlace_mapReads table pick (inSsa.places _ listed)
  known := by
    intro b member x defines
    obtain ⟨id, -, listed, rfl⟩ := rewrites.exists_action member
    rw [defines?_mapReads] at defines
    rw [rewrites.size]
    exact inSsa.known _ listed x defines
  constants := by
    intro x type value args member
    obtain ⟨id, -, listed, same⟩ := rewrites.exists_action member
    obtain ⟨old, action, changed⟩ := eq_assign_of_mapReads _ _ same.symm
    rw [action] at listed
    cases inSsa.proper.operands _ listed old mem_cons_self with
    | @leaf head isLeaf =>
      cases head with
      | read l => exact rewrites.plain.constants l type value args changed.symm
      | missing | caught | this | param => cases changed
      | _ => cases isLeaf
    | @inner head operands inner =>
      rw [Expr.mapReads_inner inner] at changed
      obtain ⟨rfl, rfl⟩ := Expr.node.inj changed
      rw [inSsa.constants x type value operands listed, map_nil]

end Rewrites

end Method

/-! ## Runs of rewritten methods -/

/-- Two states, each in its method, that have come to the same statement. The same requests have
been made and answered; an exception that is at hand in the first is at hand in the second; and of
the locals that the second method defines, those known in the first are known in the second and have
the same values. -/
structure State.Abreast {V : Type} (m n : Method) (s t : State V) : Prop where
  statement : n.order.toList[t.position]? = m.order.toList[s.position]?
  history : t.history = s.history
  caught : ∀ v, s.caught = some v → t.caught = some v
  known : ∀ x, n.Defines x → m.Knows s.position x → n.Knows t.position x
  env : ∀ x, n.Defines x → m.Knows s.position x → t.env x = s.env x

section Abreast

variable {V : Type} {m n p : Method} {r s t : State V}

theorem State.Abreast.trans (first : r.Abreast m n s) (second : s.Abreast n p t)
    (fewer : ∀ x, p.Defines x → n.Defines x) : r.Abreast m p t where
  statement := second.statement.trans first.statement
  history := second.history.trans first.history
  caught v same := second.caught v (first.caught v same)
  known x defined known := second.known x defined (first.known x (fewer x defined) known)
  env x defined known :=
    (second.env x defined (first.known x (fewer x defined) known)).trans
      (first.env x (fewer x defined) known)

end Abreast

namespace Method

/-- What stands for the locals that are read has their values, and so have the locals that are
picked in place of others. -/
structure Faithful {V : Type} (w : World V) (m : Method) (keep : StmtId → Bool) (table : Readings)
    (pick : LocalId → LocalId) : Prop where
  reads : ∀ done s id, m.run w done = .running s → m.order.toList[s.position]? = some id →
    keep id = true → ∀ x ∈ (m.action id).uses, ∀ v, s.env x = some v →
      ∀ (env : Env V) (caught : Option V) (history : History V),
        (∀ y, m.Survives keep y → m.Knows s.position y → env y = s.env y) →
        evaluate w env caught history (table x) = some (history, .ok v)
  picks : ∀ done s id, m.run w done = .running s → m.order.toList[s.position]? = some id →
    keep id = true → ∀ arg, picked s.origin (m.action id).phiArgs = some arg →
      s.entering (pick arg.value) = s.entering arg.value

namespace Rewrites

variable {m n : Method} {keep : StmtId → Bool} {table : Readings} {pick : LocalId → LocalId}
  {V : Type} {w : World V} (rewrites : m.Rewrites n keep table pick) (inSsa : m.InSsa)
  (backed : m.Backed n keep) (faithful : m.Faithful w keep table pick)

include rewrites inSsa

theorem defines_of_target (defined : n.Defines x) : m.Defines x ∧ m.Survives keep x := by
  obtain ⟨b, member, defines⟩ := defined
  obtain ⟨id, listed, found, rfl⟩ := rewrites.exists_action member
  rw [defines?_mapReads] at defines
  refine ⟨⟨_, found, defines⟩, fun other there goes own => ?_⟩
  rw [rewrites.order] at listed
  obtain rfl := inSsa.eq_of_defines there (mem_of_mem_filter listed) own defines
  rw [(mem_filter.mp listed).2] at goes
  cases goes

theorem abreast {s t : State V} (related : Sifts.Related m n keep s t) : s.Abreast m n t where
  statement := by
    rw [related.position, rewrites.order]
    cases here : m.order.toList[s.position]? with
    | none =>
      refine getElem?_eq_none ?_
      rw [rank, take_of_length_le (getElem?_eq_none_iff.mp here), countP_eq_length_filter]
    | some id => exact getElem?_rank here (related.stays id here)
  history := related.history
  caught := related.caught
  known x defined known := by
    obtain ⟨id, here, -⟩ := exists_order (getElem?_eq_getElem known.1)
    have stays := related.stays id here
    obtain ⟨there, -⟩ := (rewrites.sifts inSsa).kept here stays
    rw [related.position]
    refine ⟨lt_of_get there, assigns_iff.mpr ?_⟩
    intro assigned origin entered trail
    obtain ⟨earlier, way, earlierEntered, lifted, fewer, -⟩ :=
      (rewrites.sifts inSsa).lift inSsa.whole trail here stays rfl
    exact fewer x (rewrites.defines_of_target inSsa defined).2 (known.2 earlier lifted.path)
  env x defined known := related.env x (rewrites.defines_of_target inSsa defined).2 known

include backed faithful

theorem takesPlace : m.TakesPlace w (State.Abreast m n) n := by
  refine ((rewrites.sifts inSsa).takesPlace inSsa.proper inSsa.whole rewrites.quiet
    fun done s id reached here stays => ?_).mono fun s t related => rewrites.abreast inSsa related
  have found := getElem?_actions (m := m) here
  have listed := mem_of_getElem? found
  have proper := inSsa.proper.operands _ listed
  have hasPlace := inSsa.places _ listed
  have member : id ∈ n.order.toList := by
    rw [rewrites.order]
    exact mem_filter.mpr ⟨mem_of_getElem? here, stays⟩
  have action := rewrites.action id member
  refine ⟨fun _ env caught alike mentions r done_ => ?_, fun history values => ?_,
    fun arg v picks value => ?_⟩
  · rw [action, proper.inputs_mapReads table pick hasPlace]
    refine evaluateAll_mapReads proper.inputs_proper (fun x read v set history => ?_) mentions done_
    exact faithful.reads done s id reached here stays x (proper.inputs_uses.subset read) v set env
      caught history alike
  · rw [action]
    exact proper.conclude_mapReads table pick hasPlace history values
  · have picksThere : picked s.origin (n.action id).phiArgs =
        some { arg with value := pick arg.value } := by
      rw [action, picked_mapReads, picks]
      rfl
    obtain ⟨assigned, entered, trail, -⟩ := tracked_of_run inSsa.tidy inSsa.proper reached
      (lt_of_get found)
    refine ⟨_, picksThere, (backed.joins _ _ _ _ _ here stays trail _ picksThere).1,
      ⟨lt_of_get found, fun assigned entered trail =>
        (backed.joins _ _ _ _ _ here stays trail _ picksThere).2⟩, ?_⟩
    exact (faithful.picks done s id reached here stays arg picks).trans value

end Rewrites

end Method

end DexLift.Ir
