import DexLift.Proofs.Lower.Blocks
import Mathlib.Data.List.Pairwise

/-!
# Linking the blocks

The entry of the method comes first: its label and the receiver and parameters.
Then every block that was reached is linked: labels where traps begin, its own
label, its joins, its statements, and labels where traps end. Linking a statement
at the end of a tidy method keeps it tidy, provided that no label is placed
twice; the labels are all different because each is made for one place.
-/

namespace DexLift.Lower

open Ir List
open Outcome (bind_ok)

/-! ## Linking at the end -/

variable {m : Ir.Method} {ids : List StmtId} {index k : Nat} {id : StmtId} {regs out : Registers}
  {plan : Plan} {done : Progress} {f : Followed} {file : Dex.File}

/-- The listed statements were linked at the end; others were at most made. -/
structure Appends (m : Ir.Method) (ids : List StmtId) (after : Ir.Method) : Prop where
  order : after.order.toList = m.order.toList ++ ids
  tidy : after.Tidy
  same : ∃ locals stmts order placed, placed.size = m.placed.size ∧
    after = { m with locals, stmts, order, placed }
  stmts : m.stmts.size ≤ after.stmts.size
  locals : m.locals.size ≤ after.locals.size
  action : ∀ id < m.stmts.size, after.action id = m.action id
  defines : DefinesOnce after
  fresh : ∀ l, m.locals.size ≤ l → l < after.locals.size →
    ∃ id ∈ ids, (after.action id).defines? = some l

theorem Appends.refl (tidy : m.Tidy) (defines : DefinesOnce m) : Appends m [] m :=
  ⟨by simp, tidy, ⟨_, _, _, _, rfl, rfl⟩, le_rfl, le_rfl, fun _ _ => rfl, defines,
    fun _ old new => absurd new (Nat.not_lt.mpr old)⟩

theorem Appends.trans {a b c : Ir.Method} {more : List StmtId} (first : Appends a ids b)
    (second : Appends b more c) : Appends a (ids ++ more) c := by
  refine ⟨?_, second.tidy, ?_, Nat.le_trans first.stmts second.stmts,
    Nat.le_trans first.locals second.locals, ?_, second.defines, ?_⟩
  · rw [second.order, first.order, append_assoc]
  · obtain ⟨_, _, _, _, size, rfl⟩ := first.same
    obtain ⟨locals, stmts, order, placed, sizes, rfl⟩ := second.same
    exact ⟨locals, stmts, order, placed, sizes.trans size, rfl⟩
  · intro id inside
    rw [second.action id (Nat.lt_of_lt_of_le inside first.stmts), first.action id inside]
  · intro l old new
    by_cases early : l < b.locals.size
    · obtain ⟨id, member, defined⟩ := first.fresh l old early
      have made := first.tidy.made id (by rw [first.order]; exact mem_append_right _ member)
      exact ⟨id, mem_append_left _ member, by rw [second.action id made, defined]⟩
    · obtain ⟨id, member, defined⟩ := second.fresh l (Nat.le_of_not_lt early) new
      exact ⟨id, mem_append_right _ member, defined⟩

theorem Appends.placed {after : Ir.Method} (appends : Appends m ids after) :
    after.placed.size = m.placed.size := by
  obtain ⟨_, _, _, _, size, rfl⟩ := appends.same
  exact size

theorem Appends.traps {after : Ir.Method} (appends : Appends m ids after) :
    after.traps = m.traps := by
  obtain ⟨_, _, _, _, _, rfl⟩ := appends.same
  rfl

theorem Appends.actions {after : Ir.Method} (appends : Appends m ids after) (tidy : m.Tidy) :
    after.actions = m.actions ++ ids.map after.action := by
  simp only [Ir.Method.actions, appends.order, map_append]
  congr 1
  exact map_congr_left fun id member => appends.action id (tidy.made id member)

theorem placedAt_eq_none (tidy : m.Tidy) {l : Label} (absent : Action.label l ∉ m.actions) :
    m.placedAt? l = none := by
  cases placed : m.placedAt? l with
  | none => rfl
  | some id =>
    obtain ⟨member, label⟩ := tidy.label_of_placed l id placed
    exact absurd (label ▸ mem_map_of_mem member) absent

theorem appends_label (tidy : m.Tidy) (defines : DefinesOnce m) (known : index < m.placed.size)
    (absent : Action.label (.number index) ∉ m.actions) :
    Appends m [m.stmts.size] (m.add { action := .label (.number index) }) ∧
      (m.add { action := .label (.number index) }).action m.stmts.size = .label (.number index) := by
  have made := tidy.newStmt { action := .label (.number index) }
  have grows := grows_plain m (rfl : (Action.label (.number index)).defines? = none) none
  have here : (m.newStmt { action := .label (.number index) }).2.action m.stmts.size =
      .label (.number index) := Ir.Method.action_newStmt_self m _
  have new : m.stmts.size ∉ m.order.toList := fun member => lt_irrefl _ (tidy.made _ member)
  have after : (m.add { action := .label (.number index) }).Tidy := by
    refine made.append_label new (by simp) here known ?_
    exact placedAt_eq_none tidy absent
  obtain ⟨placed, size, equal⟩ := Ir.Method.append_with made.plain m.stmts.size
  have added : m.add { action := .label (.number index) } =
      { (m.newStmt { action := .label (.number index) }).2 with
        order := m.order.push m.stmts.size, placed } := equal
  refine ⟨⟨by rw [added]; simp, after, ⟨_, _, _, placed, size, added⟩, ?_, ?_, ?_, ?_, ?_⟩, ?_⟩
  · rw [added]
    exact grows.extends_.stmts
  · rw [added]
    exact grows.extends_.locals
  · intro id inside
    rw [added]
    exact grows.extends_.action id inside
  · rw [added]
    have grown := defines.grows grows (by simp [Action.defines?])
    exact ⟨grown.known, grown.once, grown.all⟩
  · intro l old new
    rw [added] at new
    exact absurd new (Nat.not_lt.mpr old)
  · rwa [added]

theorem appends_stmt (tidy : m.Tidy) (defines : DefinesOnce m) (made : id < m.stmts.size)
    (new : id ∉ m.order.toList) (other : (m.action id).label? = none) :
    Appends m [id] (m.append id) := by
  have after := tidy.append_other new made other
  rw [Ir.Method.append_of_not_label tidy.plain other] at after ⊢
  exact ⟨by simp, after, ⟨_, _, _, _, rfl, rfl⟩, le_rfl, le_rfl, fun _ _ => rfl,
    ⟨defines.known, defines.once, defines.all⟩, fun _ old new => absurd new (Nat.not_lt.mpr old)⟩

theorem appends_stmts (ids : List StmtId) (tidy : m.Tidy) (defines : DefinesOnce m)
    (made : ∀ id ∈ ids, id < m.stmts.size) (new : ∀ id ∈ ids, id ∉ m.order.toList)
    (nodup : ids.Nodup) (others : ∀ id ∈ ids, (m.action id).label? = none) :
    Appends m ids (ids.foldl Ir.Method.append m) ∧
      (ids.foldl Ir.Method.append m).stmts.size = m.stmts.size := by
  induction ids generalizing m with
  | nil => exact ⟨.refl tidy defines, rfl⟩
  | cons first rest ih =>
    have one := appends_stmt tidy defines (made first (by simp)) (new first (by simp))
      (others first (by simp))
    have size : (m.append first).stmts.size = m.stmts.size := by
      rw [Ir.Method.append_of_not_label tidy.plain (others first (by simp))]
    obtain ⟨absent, restNodup⟩ := nodup_cons.mp nodup
    obtain ⟨more, sizes⟩ := ih one.tidy one.defines
      (fun id member => by rw [size]; exact made id (.tail _ member))
      (fun id member => by
        rw [one.order]
        intro there
        rcases mem_append.mp there with old | last
        · exact new id (.tail _ member) old
        · exact absent (mem_singleton.mp last ▸ member))
      restNodup
      (fun id member => by
        rw [one.action id (made id (.tail _ member))]
        exact others id (.tail _ member))
    exact ⟨one.trans more, sizes.trans size⟩

def place (m : Ir.Method) (l : Label) : Ir.Method := m.add { action := .label l }

def labelled (numbers : List Nat) : List Action := numbers.map fun index => .label (.number index)

theorem appends_labels (labels : List Nat) (tidy : m.Tidy) (defines : DefinesOnce m)
    (known : ∀ index ∈ labels, index < m.placed.size)
    (absent : ∀ index ∈ labels, Action.label (.number index) ∉ m.actions) (nodup : labels.Nodup) :
    ∃ ids, Appends m ids ((labels.map Label.number).foldl place m) ∧
      ids.map ((labels.map Label.number).foldl place m).action = labelled labels ∧
      ∀ id ∈ ids, m.stmts.size ≤ id := by
  induction labels generalizing m with
  | nil => exact ⟨[], .refl tidy defines, rfl, by simp⟩
  | cons first rest ih =>
    obtain ⟨one, here⟩ := appends_label tidy defines (known first (by simp)) (absent first (by simp))
    obtain ⟨different, restNodup⟩ := nodup_cons.mp nodup
    obtain ⟨ids, more, actions, late⟩ := ih one.tidy one.defines
      (fun index member => by rw [one.placed]; exact known index (.tail _ member))
      (fun index member => by
        rw [one.actions tidy, map_singleton, here]
        intro there
        rcases mem_append.mp there with old | last
        · exact absent index (.tail _ member) old
        · cases mem_singleton.mp last
          exact different member)
      restNodup
    refine ⟨m.stmts.size :: ids, one.trans more, ?_, ?_⟩
    · rw [map_cons, labelled, map_cons]
      refine congrArg₂ _ ?_ actions
      have made := one.tidy.made m.stmts.size (by rw [one.order]; simp)
      exact (more.action m.stmts.size made).trans here
    · intro id member
      rcases mem_cons.mp member with rfl | later
      · exact Nat.le_refl _
      · exact Nat.le_trans one.stmts (late id later)

/-! ## The entry of a method -/

theorem appends_identity (tidy : m.Tidy) (defines : DefinesOnce m) (type : Ty) (value : Expr) :
    Appends m [m.stmts.size] ((m.newLocal type).2.add { action := .identity m.locals.size value }) ∧
      ((m.newLocal type).2.add { action := .identity m.locals.size value }).action m.stmts.size =
        .identity m.locals.size value ∧
      ((m.newLocal type).2.add { action := .identity m.locals.size value }).locals.size =
        m.locals.size + 1 := by
  have grows := grows_defining m
    (rfl : (Action.identity m.locals.size value).defines? = some m.locals.size) type none
  have made := (tidy.newLocal type).newStmt { action := .identity m.locals.size value }
  have here := grows.action_eq m.stmts.size
  rw [if_pos rfl] at here
  have new : m.stmts.size ∉ m.order.toList := fun member => lt_irrefl _ (tidy.made _ member)
  have known := Nat.lt_of_lt_of_eq (Nat.lt_succ_self _) grows.size_eq.symm
  have linked := appends_stmt made
    (defines.grows grows (by simp [Action.defines?])) known new (by rw [here]; rfl)
  have locals : ((m.newLocal type).2.add
      { action := .identity m.locals.size value }).locals.size = m.locals.size + 1 := by
    obtain ⟨placed, -, equal⟩ := Ir.Method.append_with made.plain m.stmts.size
    rw [show (m.newLocal type).2.add { action := .identity m.locals.size value } = _ from equal]
    simp
  have named := (linked.action m.stmts.size known).trans here
  refine ⟨⟨linked.order, linked.tidy, ?_, ?_, by rw [locals]; omega, ?_, linked.defines, ?_⟩, named,
    locals⟩
  · obtain ⟨_, _, _, placed, size, equal⟩ := linked.same
    exact ⟨_, _, _, placed, size, equal⟩
  · exact le_trans grows.extends_.stmts linked.stmts
  · intro id inside
    exact (linked.action id (lt_of_lt_of_le inside grows.extends_.stmts)).trans
      (grows.extends_.action id inside)
  · intro l old new
    rw [locals] at new
    have last : l = m.locals.size := le_antisymm (Nat.le_of_lt_succ new) old
    exact ⟨m.stmts.size, by simp, by rw [last]; exact congrArg Action.defines? named⟩

/-- Naming parameters from a register on: the statements, and what the registers hold afterwards.
`new` is the next local. -/
inductive Names : List (Text × Nat) → Nat → Registers → Nat → List Action → Registers → Prop where
  | nil {reg new : Nat} {regs : Registers} : Names [] reg regs new [] regs
  | cons {desc : Text} {index reg new : Nat} {rest : List (Text × Nat)} {regs out : Registers}
      {actions : List Action} (inside : reg < regs.size)
      (more : Names rest (reg + Descriptor.slots desc) (regs.setIfInBounds reg (some new)) (new + 1)
        actions out) :
      Names ((desc, index) :: rest) reg regs new
        (.identity new (.leaf (.param index)) :: actions) out

theorem Below.set {new : Nat} (below : Below regs new) (reg : Nat) :
    Below (regs.setIfInBounds reg (some new)) (new + 1) := by
  intro r id held
  rw [getD_set] at held
  split at held
  · cases held
    exact Nat.lt_succ_self _
  · exact Nat.lt_succ_of_lt (below r id held)

theorem nameParams_spec {params : List (Text × Nat)} {reg : Nat} {after : Ir.Method}
    (named : nameParams params reg m regs = .ok (after, out)) (tidy : m.Tidy)
    (defines : DefinesOnce m) (below : Below regs m.locals.size) :
    ∃ ids, Appends m ids after ∧
      Names params reg regs m.locals.size (ids.map after.action) out ∧
      Below out after.locals.size := by
  induction params generalizing reg m regs with
  | nil =>
    cases named
    exact ⟨[], .refl tidy defines, .nil, below⟩
  | cons first rest ih =>
    obtain ⟨desc, index⟩ := first
    unfold nameParams at named
    dsimp only [Ir.Method.newLocal_fst] at named
    split at named
    · obtain ⟨_, failing, -⟩ := bind_ok.mp named
      cases failing
    next inside =>
      obtain ⟨one, here, locals⟩ :=
        appends_identity tidy defines (.ofDesc desc) (.leaf (.param index))
      obtain ⟨ids, more, names, belowOut⟩ := ih named one.tidy one.defines
        (by rw [locals]; exact below.set reg)
      have made := one.tidy.made m.stmts.size (by rw [one.order]; simp)
      refine ⟨m.stmts.size :: ids, one.trans more, ?_, belowOut⟩
      rw [map_cons, more.action m.stmts.size made, here]
      rw [locals] at names
      exact .cons (Nat.lt_of_not_le inside) names

/-- The entry of a method: the statements that name the receiver and the parameters, and what the
registers hold then. -/
inductive Enters (ref : MethodRef) (isStatic : Bool) (code : Dex.Code) :
    List Action → Registers → Prop where
  | static {actions : List Action} {out : Registers} (here : isStatic = true)
      (names : Names ref.proto.params.zipIdx (code.registers.toNat - ref.proto.paramSlots)
        (Array.replicate code.registers.toNat none) 0 actions out) :
      Enters ref isStatic code actions out
  | receiver {actions : List Action} {out : Registers} (here : isStatic = false)
      (names : Names ref.proto.params.zipIdx
        (code.registers.toNat - (ref.proto.paramSlots + 1) + 1)
        ((Array.replicate code.registers.toNat none).setIfInBounds
          (code.registers.toNat - (ref.proto.paramSlots + 1)) (some 0)) 1 actions out)
      (inside : ref.proto.paramSlots + 1 ≤ code.registers.toNat) :
      Enters ref isStatic code (.identity 0 (.leaf .this) :: actions) out

theorem prologue_spec {ref : MethodRef} {code : Dex.Code} {after : Ir.Method}
    (named : prologue ref code m = .ok (after, out)) (tidy : m.Tidy) (defines : DefinesOnce m)
    (none : m.locals.size = 0) :
    ∃ ids, Appends m ids after ∧ Enters ref m.isStatic code (ids.map after.action) out ∧
      Below out after.locals.size := by
  have nothing : Below (Array.replicate code.registers.toNat Option.none) 0 := by
    intro r id held
    by_cases inside : r < code.registers.toNat
    · simp [inside] at held
    · simp [inside] at held
  unfold prologue at named
  dsimp only [Ir.Method.newLocal_fst] at named
  cases static : m.isStatic with
  | true =>
    simp only [static, if_true, Nat.add_zero] at named
    split at named
    · obtain ⟨_, failing, -⟩ := bind_ok.mp named
      cases failing
    · obtain ⟨ids, appends, names, below⟩ :=
        nameParams_spec named tidy defines (by rwa [none])
      rw [none] at names
      exact ⟨ids, appends, .static rfl names, below⟩
  | false =>
    simp only [static, Bool.false_eq_true, if_false] at named
    split at named
    · obtain ⟨_, failing, -⟩ := bind_ok.mp named
      cases failing
    next fits =>
      obtain ⟨one, here, locals⟩ := appends_identity tidy defines (.refTo ref.owner) (.leaf .this)
      obtain ⟨ids, appends, names, below⟩ := nameParams_spec named one.tidy one.defines
        (by rw [locals, none]; exact nothing.set _)
      have made := one.tidy.made m.stmts.size (by rw [one.order]; simp)
      refine ⟨m.stmts.size :: ids, one.trans appends, ?_, below⟩
      rw [map_cons, appends.action m.stmts.size made, here, none]
      rw [locals, none] at names
      exact .receiver rfl names (by omega)

/-! ## Traps -/

/-- A try whose traps are made: the first and the last block inside it, and the labels in front of
the one and behind the other, by number. -/
structure Trapped where
  source : Dex.Try
  first : Nat
  last : Nat
  start : Nat
  stop : Nat

def insideOf (plan : Plan) (done : Progress) (t : Dex.Try) : List Nat :=
  (List.range plan.blocks.size).filter (beginsIn plan done t)

def Trapped.traps (plan : Plan) (done : Progress) (t : Trapped) : List Trap :=
  t.source.handlers.filterMap fun h =>
    if (handlerEntry plan done h.addr).2 then
      some { start := .number t.start, stop := .number t.stop
             handler := (handlerEntry plan done h.addr).1, type := h.type }
    else none

/-- What making the traps of some tries gives. -/
structure Traps (plan : Plan) (done : Progress) (tries : List Dex.Try) (m : Ir.Method)
    (trapped : List Trapped) (after : Ir.Method) : Prop where
  same : ∃ placed, after =
    { m with placed, traps := m.traps ++ trapped.flatMap (Trapped.traps plan done) }
  size : after.placed.size = m.placed.size + 2 * trapped.length
  placedAt : ∀ l, after.placedAt? l = m.placedAt? l
  sources : trapped.map Trapped.source = tries.filter fun t => !(insideOf plan done t).isEmpty
  bounds : ∀ t ∈ trapped, (insideOf plan done t.source).head? = some t.first ∧
    (insideOf plan done t.source).getLast? = some t.last
  labels : trapped.flatMap (fun t => [t.start, t.stop]) =
    List.range' m.placed.size (2 * trapped.length)

/-- The labels to place around blocks because of traps. -/
def trapLabels (trapped : List Trapped) : TrapLabels :=
  { starts := trapped.map fun t => (t.first, .number t.start)
    stops := trapped.map fun t => (t.last, .number t.stop) }

theorem addTraps_eq (plan : Plan) (done : Progress) (m : Ir.Method) (labels : TrapLabels)
    (t : Dex.Try) :
    (insideOf plan done t = [] ∧ addTraps plan done (m, labels) t = (m, labels)) ∨
    ∃ first last, (insideOf plan done t).head? = some first ∧
      (insideOf plan done t).getLast? = some last ∧
      addTraps plan done (m, labels) t =
        ({ m.newLabel.2.newLabel.2 with
            traps := m.traps ++ Trapped.traps plan done
              ⟨t, first, last, m.placed.size, m.placed.size + 1⟩ },
          { starts := labels.starts ++ [(first, .number m.placed.size)]
            stops := labels.stops ++ [(last, .number (m.placed.size + 1))] }) := by
  unfold addTraps
  cases inside : insideOf plan done t with
  | nil =>
    left
    rw [show (List.range plan.blocks.size).filter (beginsIn plan done t) = [] from inside]
    exact ⟨rfl, rfl⟩
  | cons first rest =>
    right
    obtain ⟨last, ending⟩ : ∃ last, (first :: rest).getLast? = some last :=
      ⟨_, getLast?_eq_some_getLast (by simp)⟩
    refine ⟨first, last, rfl, ending, ?_⟩
    rw [show (List.range plan.blocks.size).filter (beginsIn plan done t) = first :: rest from inside]
    dsimp only [head?_cons]
    rw [ending]
    simp [Trapped.traps, Ir.Method.newLabel]

theorem addTraps_spec (plan : Plan) (done : Progress) (tries : List Dex.Try) (m : Ir.Method)
    (before : List Trapped) :
    ∃ trapped after, tries.foldl (addTraps plan done) (m, trapLabels before) =
        (after, trapLabels (before ++ trapped)) ∧ Traps plan done tries m trapped after := by
  induction tries generalizing m before with
  | nil =>
    refine ⟨[], m, by simp, ⟨⟨m.placed, by simp⟩, rfl, fun _ => rfl, rfl, by simp, rfl⟩⟩
  | cons t rest ih =>
    rw [foldl_cons]
    rcases addTraps_eq plan done m (trapLabels before) t with
      ⟨none, same⟩ | ⟨first, last, head, ending, equal⟩
    · obtain ⟨trapped, after, folded, traps⟩ := ih m before
      rw [same]
      refine ⟨trapped, after, folded, ⟨traps.same, traps.size, traps.placedAt, ?_, traps.bounds,
        traps.labels⟩⟩
      rw [traps.sources]
      simp [none]
    · let one : Trapped := ⟨t, first, last, m.placed.size, m.placed.size + 1⟩
      let next : Ir.Method :=
        { m.newLabel.2.newLabel.2 with traps := m.traps ++ Trapped.traps plan done one }
      obtain ⟨trapped, after, folded, traps⟩ := ih next (before ++ [one])
      have size : next.placed.size = m.placed.size + 2 := by simp [next, Ir.Method.newLabel]
      have labels : trapLabels (before ++ [one]) =
          { starts := (trapLabels before).starts ++ [(first, .number m.placed.size)]
            stops := (trapLabels before).stops ++ [(last, .number (m.placed.size + 1))] } := by
        simp [trapLabels, one]
      rw [labels, append_assoc] at folded
      rw [equal]
      refine ⟨one :: trapped, after, folded, ⟨?_, ?_, ?_, ?_, ?_, ?_⟩⟩
      · obtain ⟨placed, same⟩ := traps.same
        exact ⟨placed, by rw [same]; simp [next, Ir.Method.newLabel]⟩
      · rw [traps.size, size, length_cons]
        omega
      · intro l
        rw [traps.placedAt]
        exact (Ir.Method.placedAt_newLabel _ l).trans (Ir.Method.placedAt_newLabel _ l)
      · have some : (insideOf plan done t).isEmpty = false := by grind
        rw [map_cons, traps.sources, filter_cons_of_pos (by simp [some])]
      · intro other member
        rcases mem_cons.mp member with rfl | later
        · exact ⟨head, ending⟩
        · exact traps.bounds other later
      · have count : 2 * (trapped.length + 1) = 2 + 2 * trapped.length := by omega
        rw [flatMap_cons, traps.labels, size, length_cons, count, ← range'_append_1]
        rfl

/-! ## Blocks -/

/-- The labels in front of a block because traps begin there, by number. -/
def startsAt (trapped : List Trapped) (k : Nat) : List Nat :=
  (trapped.filter fun t => t.first == k).map Trapped.start

/-- The labels behind a block because traps end there, by number. -/
def stopsAt (trapped : List Trapped) (k : Nat) : List Nat :=
  (trapped.filter fun t => t.last == k).map Trapped.stop

/-- All labels that belong to a block, by number. -/
def labelsAt (trapped : List Trapped) (k : Nat) : List Nat :=
  startsAt trapped k ++ [k] ++ stopsAt trapped k

variable {trapped : List Trapped}

theorem linkBlock_eq (label : (plan.block k).label = .number k)
    (followed : followed? done k = some f) (m : Ir.Method) :
    linkBlock plan done (trapLabels trapped) m k =
      ((stopsAt trapped k).map Label.number).foldl place ((f.phis ++ f.body).foldl Ir.Method.append
          (((startsAt trapped k ++ [k]).map Label.number).foldl place m)) := by
  have starts : ((trapLabels trapped).starts.filter fun e => e.1 == k).map Prod.snd =
      (startsAt trapped k).map Label.number := by
    simp [trapLabels, startsAt, filter_map, Function.comp_def]
  have stops : ((trapLabels trapped).stops.filter fun e => e.1 == k).map Prod.snd =
      (stopsAt trapped k).map Label.number := by
    simp [trapLabels, stopsAt, filter_map, Function.comp_def]
  unfold linkBlock
  rw [show done[k]?.join = some f from followed]
  dsimp only
  rw [starts, stops, label, map_append]
  rfl

/-- What linking a block needs of the method: its labels are made but not placed, its statements are
made but not linked, and none of these is a label. -/
structure Linkable (done : Progress) (trapped : List Trapped) (m : Ir.Method) (k : Nat) : Prop where
  known : ∀ index ∈ labelsAt trapped k, index < m.placed.size
  absent : ∀ index ∈ labelsAt trapped k, Action.label (.number index) ∉ m.actions
  labels : (labelsAt trapped k).Nodup
  made : ∀ id ∈ idsOf done k, id < m.stmts.size
  new : ∀ id ∈ idsOf done k, id ∉ m.order.toList
  stmts : (idsOf done k).Nodup
  others : ∀ id ∈ idsOf done k, (m.action id).label? = none

theorem linkBlock_spec (label : (plan.block k).label = .number k)
    (followed : followed? done k = some f) (tidy : m.Tidy) (defines : DefinesOnce m)
    (linkable : Linkable done trapped m k) :
    ∃ front back, Appends m (front ++ idsOf done k ++ back)
        (linkBlock plan done (trapLabels trapped) m k) ∧
      front.map (linkBlock plan done (trapLabels trapped) m k).action =
        labelled (startsAt trapped k ++ [k]) ∧
      back.map (linkBlock plan done (trapLabels trapped) m k).action =
        labelled (stopsAt trapped k) := by
  have ids : idsOf done k = f.phis ++ f.body := by rw [idsOf, followed]
  obtain ⟨nodupFront, nodupBack, apart⟩ := nodup_append.mp linkable.labels
  obtain ⟨front, one, frontActions, late⟩ := appends_labels (startsAt trapped k ++ [k]) tidy defines
    (fun index member => linkable.known index (mem_append_left _ member))
    (fun index member => linkable.absent index (mem_append_left _ member)) nodupFront
  have others : ∀ id ∈ idsOf done k,
      ((((startsAt trapped k ++ [k]).map Label.number).foldl place m).action id).label? = none := by
    intro id member
    rw [one.action id (linkable.made id member)]
    exact linkable.others id member
  obtain ⟨two, size⟩ := appends_stmts (idsOf done k) one.tidy one.defines
    (fun id member => lt_of_lt_of_le (linkable.made id member) one.stmts)
    (fun id member there => by
      rw [one.order] at there
      rcases mem_append.mp there with old | new
      · exact linkable.new id member old
      · exact Nat.not_lt.mpr (late id new) (linkable.made id member))
    linkable.stmts others
  have both := one.trans two
  obtain ⟨back, three, backActions, -⟩ := appends_labels (stopsAt trapped k) two.tidy two.defines
    (fun index member => by
      rw [both.placed]
      exact linkable.known index (mem_append_right _ member))
    (fun index member there => by
      rw [two.actions one.tidy, one.actions tidy, frontActions] at there
      rcases mem_append.mp there with early | stmt
      · rcases mem_append.mp early with old | label
        · exact linkable.absent index (mem_append_right _ member) old
        · obtain ⟨other, inside, same⟩ := mem_map.mp label
          cases same
          exact apart index inside index member rfl
      · obtain ⟨id, inside, same⟩ := mem_map.mp stmt
        have plain := others id inside
        rw [← two.action id (lt_of_lt_of_le (linkable.made id inside) one.stmts), same] at plain
        cases plain)
    nodupBack
  rw [linkBlock_eq label followed, ← ids]
  refine ⟨front, back, both.trans three, ?_, backActions⟩
  rw [← frontActions]
  apply map_congr_left
  intro id member
  have made : id < (((startsAt trapped k ++ [k]).map Label.number).foldl place m).stmts.size :=
    one.tidy.made id (by rw [one.order]; exact mem_append_right _ member)
  rw [three.action id (lt_of_lt_of_le made two.stmts), two.action id made]

theorem not_mem_of_labelled {numbers : List Nat} (labels : ids.map m.action = labelled numbers)
    (other : (m.action id).label? = none) : id ∉ ids := by
  intro member
  have action := mem_map_of_mem (f := m.action) member
  rw [labels] at action
  obtain ⟨index, -, same⟩ := mem_map.mp action
  rw [← same] at other
  cases other

theorem Linkable.after {after : Ir.Method} {j : Nat} (linkable : Linkable done trapped m j)
    (linked : Linkable done trapped m k) (tidy : m.Tidy) {front back : List StmtId}
    (appends : Appends m (front ++ idsOf done k ++ back) after)
    (frontLabels : front.map after.action = labelled (startsAt trapped k ++ [k]))
    (backLabels : back.map after.action = labelled (stopsAt trapped k))
    (labels : List.Disjoint (labelsAt trapped k) (labelsAt trapped j))
    (ids : List.Disjoint (idsOf done k) (idsOf done j)) : Linkable done trapped after j := by
  have others : ∀ id ∈ idsOf done j, (after.action id).label? = none := by
    intro id member
    rw [appends.action id (linkable.made id member)]
    exact linkable.others id member
  refine ⟨?_, ?_, linkable.labels, ?_, ?_, linkable.stmts, others⟩
  · intro index member
    rw [appends.placed]
    exact linkable.known index member
  · intro index member there
    rw [appends.actions tidy, map_append, map_append, frontLabels, backLabels] at there
    rcases mem_append.mp there with old | new
    · exact linkable.absent index member old
    · rcases mem_append.mp new with early | late
      · rcases mem_append.mp early with label | stmt
        · obtain ⟨other, inside, same⟩ := mem_map.mp label
          cases same
          exact labels (mem_append_left _ inside) member
        · obtain ⟨id, inside, same⟩ := mem_map.mp stmt
          have plain := linked.others id inside
          rw [← appends.action id (linked.made id inside), same] at plain
          cases plain
      · obtain ⟨other, inside, same⟩ := mem_map.mp late
        cases same
        exact labels (mem_append_right _ inside) member
  · intro id member
    exact lt_of_lt_of_le (linkable.made id member) appends.stmts
  · intro id member there
    rw [appends.order] at there
    rcases mem_append.mp there with old | new
    · exact linkable.new id member old
    · rcases mem_append.mp new with early | late
      · rcases mem_append.mp early with label | stmt
        · exact not_mem_of_labelled frontLabels (others id member) label
        · exact ids stmt member
      · exact not_mem_of_labelled backLabels (others id member) late

/-- Linking several blocks that were reached, one after the other. -/
theorem linkBlocks_spec (trapped : List Trapped) (ks : List Nat)
    (label : ∀ k ∈ ks, (plan.block k).label = .number k)
    (followed : ∀ k ∈ ks, (followed? done k).isSome) (nodup : ks.Nodup)
    (labels : ∀ j ∈ ks, ∀ k ∈ ks, j ≠ k →
      List.Disjoint (labelsAt trapped j) (labelsAt trapped k))
    (ids : ∀ j ∈ ks, ∀ k ∈ ks, j ≠ k → List.Disjoint (idsOf done j) (idsOf done k)) (tidy : m.Tidy)
    (defines : DefinesOnce m) (linkable : ∀ k ∈ ks, Linkable done trapped m k) :
    ∃ front back : Nat → List StmtId,
      Appends m (ks.flatMap fun k => front k ++ idsOf done k ++ back k)
        (ks.foldl (linkBlock plan done (trapLabels trapped)) m) ∧
      ∀ k ∈ ks, (front k).map (ks.foldl (linkBlock plan done (trapLabels trapped)) m).action =
          labelled (startsAt trapped k ++ [k]) ∧
        (back k).map (ks.foldl (linkBlock plan done (trapLabels trapped)) m).action =
          labelled (stopsAt trapped k) := by
  induction ks generalizing m with
  | nil => exact ⟨fun _ => [], fun _ => [], .refl tidy defines, by simp⟩
  | cons k rest ih =>
    obtain ⟨absent, restNodup⟩ := nodup_cons.mp nodup
    obtain ⟨f, here⟩ := Option.isSome_iff_exists.mp (followed k (by simp))
    have linkableK := linkable k (by simp)
    obtain ⟨front, back, one, frontLabels, backLabels⟩ :=
      linkBlock_spec (label k (by simp)) here tidy defines linkableK
    have different : ∀ j ∈ rest, k ≠ j := fun j member same => absent (same ▸ member)
    obtain ⟨fronts, backs, more, actions⟩ := ih (fun j member => label j (.tail _ member))
      (fun j member => followed j (.tail _ member)) restNodup
      (fun i first j second =>
        labels i (.tail _ first) j (.tail _ second))
      (fun i first j second =>
        ids i (.tail _ first) j (.tail _ second))
      one.tidy one.defines
      (fun j member => (linkable j (.tail _ member)).after linkableK tidy one frontLabels backLabels
        (labels k (by simp) j (.tail _ member) (different j member))
        (ids k (by simp) j (.tail _ member) (different j member)))
    have stays : ∀ id ∈ front ++ idsOf done k ++ back,
        (rest.foldl (linkBlock plan done (trapLabels trapped))
          (linkBlock plan done (trapLabels trapped) m k)).action id =
        (linkBlock plan done (trapLabels trapped) m k).action id := by
      intro id member
      exact more.action id (one.tidy.made id (by rw [one.order]; exact mem_append_right _ member))
    refine ⟨fun j => if j = k then front else fronts j, fun j => if j = k then back else backs j,
      ?_, ?_⟩
    · have pieces : (rest.flatMap fun j => (if j = k then front else fronts j) ++ idsOf done j ++
          (if j = k then back else backs j)) =
          rest.flatMap fun j => fronts j ++ idsOf done j ++ backs j := by
        apply flatMap_congr
        intro j member
        simp [Ne.symm (different j member)]
      rw [flatMap_cons, pieces]
      dsimp only
      rw [if_pos rfl, if_pos rfl]
      exact one.trans more
    · intro j member
      rw [foldl_cons]
      rcases mem_cons.mp member with rfl | later
      · dsimp only
        rw [if_pos rfl, if_pos rfl, ← frontLabels, ← backLabels]
        exact ⟨map_congr_left fun id inside => stays id (by simp [inside]),
          map_congr_left fun id inside => stays id (by simp [inside])⟩
      · dsimp only
        rw [if_neg (Ne.symm (different j later)), if_neg (Ne.symm (different j later))]
        exact actions j later

/-! ## The whole body -/

/-- The blocks that were reached, in the order in which they are linked. -/
def layout (plan : Plan) (done : Progress) : List Nat :=
  (List.range plan.blocks.size).filter fun k => (followed? done k).isSome

theorem linkBlocks_layout (plan : Plan) (done : Progress) (labels : TrapLabels) (ks : List Nat)
    (m : Ir.Method) :
    ks.foldl (linkBlock plan done labels) m =
      (ks.filter fun k => (followed? done k).isSome).foldl (linkBlock plan done labels) m := by
  induction ks generalizing m with
  | nil => rfl
  | cons k rest ih =>
    rw [foldl_cons, ih]
    cases followed : followed? done k with
    | none =>
      have same : linkBlock plan done labels m k = m := by
        unfold linkBlock
        rw [show done[k]?.join = none from followed]
      rw [same, filter_cons_of_neg (by simp [followed])]
    | some f => rw [filter_cons_of_pos (by simp [followed]), foldl_cons]

theorem leadsTo_isSome_iff (sound : Plan.Sound plan.source plan.blocks)
    (inside : k < plan.blocks.size) :
    (plan.block k).leadsTo.isSome ↔ plan.source.starts.length ≤ k := by
  constructor
  · intro leads
    by_contra early
    rw [Plan.block, sound.leadsTo k (Nat.lt_of_not_le early)] at leads
    cases leads
  · intro late
    obtain ⟨h, -, leads, -⟩ := sound.front k inside late
    rw [Plan.block, leads]
    rfl

theorem linkAll_eq (sound : Plan.Sound plan.source plan.blocks) (done : Progress) (m : Ir.Method) :
    linkAll plan done m =
      (layout plan done).foldl
        (linkBlock plan done (plan.source.tries.foldl (addTraps plan done) (m, {})).2)
        (plan.source.tries.foldl (addTraps plan done) (m, {})).1 := by
  have parts : List.range plan.blocks.size = List.range plan.source.starts.length ++
      List.range' plan.source.starts.length (plan.blocks.size - plan.source.starts.length) := by
    have whole := @range'_append_1 0 plan.source.starts.length
      (plan.blocks.size - plan.source.starts.length)
    rw [Nat.zero_add, Nat.add_sub_of_le sound.count] at whole
    rw [range_eq_range', range_eq_range']
    exact whole.symm
  have leads : ∀ k ∈ List.range plan.blocks.size,
      (plan.block k).leadsTo.isSome = decide (plan.source.starts.length ≤ k) := by
    intro k member
    rw [Bool.eq_iff_iff, decide_eq_true_iff]
    exact leadsTo_isSome_iff sound (mem_range.mp member)
  have inFront : (List.range plan.blocks.size).filter (fun k => (plan.block k).leadsTo.isSome) =
      List.range' plan.source.starts.length (plan.blocks.size - plan.source.starts.length) := by
    rw [filter_congr leads, parts, filter_append, filter_eq_nil_iff.mpr,
      filter_eq_self.mpr, nil_append]
    · intro k member
      simpa using (mem_range'_1.mp member).1
    · intro k member
      simpa using mem_range.mp member
  have others : (List.range plan.blocks.size).filter
      (fun k => !(plan.block k).leadsTo.isSome) = List.range plan.source.starts.length := by
    have negated : ∀ k ∈ List.range plan.blocks.size,
        (!(plan.block k).leadsTo.isSome) = !decide (plan.source.starts.length ≤ k) :=
      fun k member => congrArg not (leads k member)
    rw [filter_congr negated, parts, filter_append, filter_eq_self.mpr,
      filter_eq_nil_iff.mpr, append_nil]
    · intro k member
      simpa using (mem_range'_1.mp member).1
    · intro k member
      simpa using mem_range.mp member
  unfold linkAll layout
  dsimp only [partition_eq_filter_filter]
  rw [partition_eq_filter_filter]
  dsimp only
  rw [inFront, show (not ∘ fun k => (plan.block k).leadsTo.isSome) =
    fun k => !(plan.block k).leadsTo.isSome from rfl, others, ← parts, linkBlocks_layout]

theorem Extends.tidy {grown : Ir.Method} (grows : Extends m grown) (tidy : m.Tidy) :
    grown.Tidy := by
  obtain ⟨locals, stmts, same⟩ := grows.same
  have order : grown.order = m.order := by rw [same]
  refine tidy.of_same_labels (by rw [same]; exact tidy.plain) (by rw [order]; exact tidy.nodup)
    ?_ ?_ ?_
  · intro id member
    rw [order] at member
    exact lt_of_lt_of_le (tidy.made id member) grows.stmts
  · intro id l
    rw [order]
    refine and_congr_right fun member => ?_
    rw [grows.action id (tidy.made id member)]
  · intro l
    exact Ir.Method.placedAt_congr (by rw [same]) l

theorem Extends.actions {grown : Ir.Method} (grows : Extends m grown) (tidy : m.Tidy) :
    grown.actions = m.actions := by
  obtain ⟨locals, stmts, same⟩ := grows.same
  have order : grown.order = m.order := by rw [same]
  simp only [Ir.Method.actions, order]
  exact map_congr_left fun id member => grows.action id (tidy.made id member)

theorem Emits.not_label {labelOf : UInt32 → Label} {behind : Label} {new : LocalId}
    {after : Registers} {op : Dalvik.Operation} {a : Action}
    (emits : Emits labelOf behind new regs op (some a) after) : a.label? = none := by
  cases emits <;> rfl

theorem Follows.forall_emitted {b : PlannedBlock} {throwing : Option Nat} {kept : Registers}
    (follows : Follows file plan b throwing kept m index regs ids out) {holds : Action → Prop}
    (emitted : ∀ {labelOf behind new regs op a after},
      Emits labelOf behind new regs op (some a) after → holds a) :
    ∀ id ∈ ids, holds (m.action id) := by
  induction follows with
  | finish => simp
  | @step _ _ _ _ _ _ made _ _ _ _ emits _ makes _ _ _ ih =>
    intro id member
    rcases mem_append.mp member with here | later
    · have action := makes ▸ mem_map_of_mem (f := m.action) here
      cases made with
      | none => simp at action
      | some a =>
        simp only [Option.toList_some, mem_singleton] at action
        rw [action]
        exact emitted emits
    · exact ih id later

theorem Built.not_label {entry : Entry} {count : Nat} {low : Nat} {into : Registers}
    (built : Built file plan entry count m done k f low into) :
    ∀ id ∈ f.phis ++ f.body, (m.action id).label? = none := by
  intro id member
  rcases mem_append.mp member with phi | body
  · cases join : (plan.block k).isJoin with
    | true =>
      have action := (built.joins join).2 ▸ mem_map_of_mem (f := m.action) phi
      obtain ⟨l, -, same⟩ := mem_map.mp action
      rw [← same]
      rfl
    | false =>
      rw [(built.single join).1] at phi
      cases phi
  · cases leads : (plan.block k).leadsTo with
    | some next =>
      have action := (built.body.front next leads).2 ▸ mem_map_of_mem (f := m.action) body
      rw [mem_singleton.mp action]
      rfl
    | none => exact (built.body.instructions leads).forall_emitted (fun emits => emits.not_label) id body

/-- What linking all blocks gives. The labels around traps are new. -/
structure Linked (plan : Plan) (done : Progress) (m : Ir.Method) (trapped : List Trapped)
    (front back : Nat → List StmtId) (after : Ir.Method) : Prop where
  order : after.order.toList = m.order.toList ++
    (layout plan done).flatMap fun k => front k ++ idsOf done k ++ back k
  tidy : after.Tidy
  defines : DefinesOnce after
  traps : after.traps = trapped.flatMap (Trapped.traps plan done)
  made : m.stmts.size ≤ after.stmts.size
  action : ∀ id < m.stmts.size, after.action id = m.action id
  before : ∀ k ∈ layout plan done,
    (front k).map after.action = labelled (startsAt trapped k ++ [k])
  behind : ∀ k ∈ layout plan done, (back k).map after.action = labelled (stopsAt trapped k)
  sources : trapped.map Trapped.source =
    plan.source.tries.filter fun t => !(insideOf plan done t).isEmpty
  bounds : ∀ t ∈ trapped, (insideOf plan done t.source).head? = some t.first ∧
    (insideOf plan done t.source).getLast? = some t.last
  labels : trapped.flatMap (fun t => [t.start, t.stop]) =
    List.range' (plan.blocks.size + 1) (2 * trapped.length)

theorem disjoint_of_nodup {α β : Type} {parts : List α} {content : α → List β}
    (nodup : (parts.flatMap content).Nodup) {a b : α} (here : a ∈ parts) (there : b ∈ parts)
    (different : a ≠ b) : List.Disjoint (content a) (content b) := by
  have symmetric : Std.Symm (Function.onFun List.Disjoint content) :=
    ⟨fun _ _ apart _ first second => apart second first⟩
  exact (nodup_flatMap.mp nodup).2.forall here there different

variable {t : Trapped}

section Labels

variable {trapped : List Trapped} {low : Nat}
  (labels : trapped.flatMap (fun t => [t.start, t.stop]) = List.range' low (2 * trapped.length))

include labels

theorem le_of_labels (member : t ∈ trapped) :
    low ≤ t.start ∧ low ≤ t.stop ∧ t.start < low + 2 * trapped.length ∧
      t.stop < low + 2 * trapped.length := by
  have inside : ∀ index ∈ [t.start, t.stop], index ∈ List.range' low (2 * trapped.length) := by grind
  have first := mem_range'_1.mp (inside t.start (by simp))
  have second := mem_range'_1.mp (inside t.stop (by simp))
  exact ⟨first.1, second.1, first.2, second.2⟩

theorem nodup_labels : (trapped.flatMap fun t => [t.start, t.stop]).Nodup := by
  rw [labels]
  exact nodup_range'

theorem start_ne_stop (member : t ∈ trapped) : t.start ≠ t.stop := by
  simpa using (nodup_flatMap.mp (nodup_labels labels)).1 t member

theorem eq_of_labels {u : Trapped} (here : t ∈ trapped) (there : u ∈ trapped) (index : Nat)
    (first : index ∈ [t.start, t.stop]) (second : index ∈ [u.start, u.stop]) : t = u := by
  by_contra different
  exact disjoint_of_nodup (nodup_labels labels) here there different first second

theorem nodup_labelsOf (keep : Trapped → Bool) {pick : Trapped → Nat}
    (listed : ∀ t, pick t ∈ [t.start, t.stop]) : ((trapped.filter keep).map pick).Nodup := by
  have pairwise := (nodup_flatMap.mp (nodup_labels labels)).2.sublist (filter_sublist (p := keep))
  refine pairwise_map.mpr (pairwise.imp ?_)
  intro t u apart same
  exact apart (listed t) (same ▸ listed u)

theorem nodup_labelsAt (old : k < low) : (labelsAt trapped k).Nodup := by
  have starts : ∀ index ∈ startsAt trapped k, ∃ t ∈ trapped, t.start = index := by
    intro index member
    obtain ⟨t, kept, same⟩ := mem_map.mp member
    exact ⟨t, mem_of_mem_filter kept, same⟩
  have stops : ∀ index ∈ stopsAt trapped k, ∃ t ∈ trapped, t.stop = index := by
    intro index member
    obtain ⟨t, kept, same⟩ := mem_map.mp member
    exact ⟨t, mem_of_mem_filter kept, same⟩
  unfold labelsAt
  rw [nodup_append, nodup_append]
  refine ⟨⟨nodup_labelsOf labels _ (by simp), by simp, ?_⟩, nodup_labelsOf labels _ (by simp), ?_⟩
  · rintro _ first _ second rfl
    obtain ⟨t, member, rfl⟩ := starts _ first
    have := (le_of_labels labels member).1
    have := mem_singleton.mp second
    omega
  · rintro _ first _ second rfl
    obtain ⟨t, member, rfl⟩ := stops _ second
    rcases mem_append.mp first with start | own
    · obtain ⟨u, other, same⟩ := starts _ start
      have equal := eq_of_labels labels other member t.stop (by simp [same]) (by simp)
      subst equal
      exact start_ne_stop labels other same
    · have := (le_of_labels labels member).2.1
      have := mem_singleton.mp own
      omega

theorem disjoint_labelsAt {j : Nat} (first : j < low) (second : k < low) (different : j ≠ k) :
    List.Disjoint (labelsAt trapped j) (labelsAt trapped k) := by
  have known : ∀ {i index}, index ∈ labelsAt trapped i → index = i ∨ ∃ t ∈ trapped,
      t.start = index ∧ t.first = i ∨ t.stop = index ∧ t.last = i := by
    intro i index member
    rcases mem_append.mp member with front | stop
    · rcases mem_append.mp front with start | own
      · obtain ⟨t, kept, same⟩ := mem_map.mp start
        obtain ⟨inside, here⟩ := mem_filter.mp kept
        exact .inr ⟨t, inside, .inl ⟨same, by simpa using here⟩⟩
      · exact .inl (mem_singleton.mp own)
    · obtain ⟨t, kept, same⟩ := mem_map.mp stop
      obtain ⟨inside, here⟩ := mem_filter.mp kept
      exact .inr ⟨t, inside, .inr ⟨same, by simpa using here⟩⟩
  intro index inJ inK
  rcases known inJ with rfl | ⟨t, here, labelT⟩
  · rcases known inK with rfl | ⟨u, there, labelU⟩
    · exact different rfl
    · have := le_of_labels labels there
      omega
  · rcases known inK with rfl | ⟨u, there, labelU⟩
    · have := le_of_labels labels here
      omega
    · have equal : t = u := eq_of_labels labels here there index
        (by rcases labelT with ⟨rfl, -⟩ | ⟨rfl, -⟩ <;> simp)
        (by rcases labelU with ⟨rfl, -⟩ | ⟨rfl, -⟩ <;> simp)
      subst equal
      have := start_ne_stop labels here
      omega

end Labels

section Linking

variable {file : Dex.File} {plan : Plan} {entry : Entry} {count : Nat} {start m : Ir.Method}
  {ks : List Nat} {done : Progress}

/-- What is linked before the blocks: a tidy method whose one label is the last that was made. -/
structure Opening (plan : Plan) (start : Ir.Method) : Prop where
  tidy : start.Tidy
  placed : start.placed.size = plan.blocks.size + 1
  traps : start.traps = []
  labels : ∀ index, Action.label (.number index) ∈ start.actions → index = plan.blocks.size

theorem mem_of_mem_layout (progressed : Progressed file plan entry count start ks m done)
    (member : k ∈ layout plan done) : k < plan.blocks.size ∧ k ∈ ks := by
  obtain ⟨inside, reached⟩ := mem_filter.mp member
  exact ⟨mem_range.mp inside, (progressed.reached k).mp reached⟩

theorem linkable_of_progressed (opening : Opening plan start)
    (progressed : Progressed file plan entry count start ks m done) {middle : Ir.Method}
    (traps : Traps plan done plan.source.tries m trapped middle) (member : k ∈ layout plan done) :
    Linkable done trapped middle k := by
  obtain ⟨inside, listed⟩ := mem_of_mem_layout progressed member
  obtain ⟨f, followed⟩ := Option.isSome_iff_exists.mp ((progressed.reached k).mpr listed)
  obtain ⟨low, into, built⟩ := progressed.built k f followed
  have ids : idsOf done k = f.phis ++ f.body := by rw [idsOf, followed]
  have grows := progressed.makes.grows
  have placed : m.placed.size = plan.blocks.size + 1 := by
    obtain ⟨_, _, same⟩ := grows.same
    rw [same]
    exact opening.placed
  have labels := traps.labels
  rw [placed] at labels
  obtain ⟨_, same⟩ := traps.same
  have stmts : middle.stmts = m.stmts := by rw [same]
  have order : middle.order = start.order := by
    obtain ⟨_, _, grown⟩ := grows.same
    rw [same, grown]
  have actions : middle.actions = start.actions := by
    rw [← grows.actions opening.tidy, same]
    rfl
  have bounds : ∀ index ∈ labelsAt trapped k,
      index < plan.blocks.size + 1 + 2 * trapped.length ∧ index ≠ plan.blocks.size := by
    intro index label
    rcases mem_append.mp label with front | stop
    · rcases mem_append.mp front with begin_ | own
      · obtain ⟨t, kept, rfl⟩ := mem_map.mp begin_
        have := le_of_labels labels (mem_of_mem_filter kept)
        omega
      · have := mem_singleton.mp own
        omega
    · obtain ⟨t, kept, rfl⟩ := mem_map.mp stop
      have := le_of_labels labels (mem_of_mem_filter kept)
      omega
  refine ⟨?_, ?_, nodup_labelsAt labels (by omega), ?_, ?_, ?_, ?_⟩
  · intro index label
    rw [traps.size, placed]
    exact (bounds index label).1
  · intro index label there
    rw [actions] at there
    exact (bounds index label).2 (opening.labels index there)
  · intro id body
    rw [stmts]
    exact built.made id (ids ▸ body)
  · intro id body there
    rw [order] at there
    have old := opening.tidy.made id there
    have new := (progressed.makes.lt (mem_flatMap.mpr ⟨k, listed, body⟩)).1
    exact Nat.not_lt.mpr new old
  · have nodup : (ks.flatMap (idsOf done)).Nodup := by
      rw [progressed.makes.range]
      exact nodup_range'
    exact (nodup_flatMap.mp nodup).1 k listed
  · intro id body
    rw [Ir.Method.action_congr stmts]
    exact built.not_label id (ids ▸ body)

theorem linkAll_spec (sound : Plan.Sound plan.source plan.blocks) (opening : Opening plan start)
    (progressed : Progressed file plan entry count start ks m done) :
    ∃ trapped front back, Linked plan done m trapped front back (linkAll plan done m) := by
  obtain ⟨trapped, middle, folded, traps⟩ := addTraps_spec plan done plan.source.tries m []
  obtain ⟨_, same⟩ := traps.same
  have grows := progressed.makes.grows
  have placed : m.placed.size = plan.blocks.size + 1 := by
    obtain ⟨_, _, grown⟩ := grows.same
    rw [grown]
    exact opening.placed
  have none : m.traps = [] := by
    obtain ⟨_, _, grown⟩ := grows.same
    rw [grown]
    exact opening.traps
  have labels := traps.labels
  rw [placed] at labels
  have stmts : middle.stmts = m.stmts := by rw [same]
  have order : middle.order = m.order := by rw [same]
  have tidy : middle.Tidy := by
    refine (grows.tidy opening.tidy).of_same_labels ?_ ?_ ?_ ?_ traps.placedAt
    · rw [same]
      exact (grows.tidy opening.tidy).plain
    · rw [order]
      exact (grows.tidy opening.tidy).nodup
    · rw [order, stmts]
      exact (grows.tidy opening.tidy).made
    · intro id l
      rw [order, Ir.Method.action_congr stmts]
  have defines : DefinesOnce middle := by
    rw [same]
    exact ⟨progressed.makes.defines.known, progressed.makes.defines.once,
      progressed.makes.defines.all⟩
  have nodup : (ks.flatMap (idsOf done)).Nodup := by
    rw [progressed.makes.range]
    exact nodup_range'
  obtain ⟨front, back, appends, pieces⟩ := linkBlocks_spec trapped (layout plan done)
    (fun k member => sound.label k (mem_of_mem_layout progressed member).1)
    (fun k member => (mem_filter.mp member).2)
    (nodup_range.filter _)
    (fun j first k second different => disjoint_labelsAt labels
      (Nat.lt_succ_of_lt (mem_of_mem_layout progressed first).1)
      (Nat.lt_succ_of_lt (mem_of_mem_layout progressed second).1) different)
    (fun j first k second different => disjoint_of_nodup nodup
      (mem_of_mem_layout progressed first).2 (mem_of_mem_layout progressed second).2 different)
    tidy defines
    (fun k member => linkable_of_progressed opening progressed traps member)
  refine ⟨trapped, front, back, ?_⟩
  have equal : linkAll plan done m =
      (layout plan done).foldl (linkBlock plan done (trapLabels trapped)) middle := by
    rw [linkAll_eq sound, show (m, ({} : TrapLabels)) = (m, trapLabels []) from rfl, folded]
    rfl
  rw [equal]
  refine ⟨?_, appends.tidy, appends.defines, ?_, ?_, ?_, fun k member => (pieces k member).1,
    fun k member => (pieces k member).2, traps.sources, traps.bounds, labels⟩
  · rw [appends.order, order]
  · rw [appends.traps, same]
    simp [none]
  · rw [← stmts]
    exact appends.stmts
  · intro id made
    rw [appends.action id (by rwa [stmts]), Ir.Method.action_congr stmts]

end Linking

end DexLift.Lower
