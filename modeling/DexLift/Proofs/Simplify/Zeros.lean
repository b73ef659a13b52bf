import DexLift.Proofs.Simplify.Redirecting

/-!
# Splitting zeros by what their readers want

The definition of a zero whose kind is open gets further ones behind it, one for each kind that is
wanted, and readers that want a kind read the zero of that kind. All of them are zero, so the method
does what it did.
-/

namespace DexLift.Ir

open List

def ZeroChange.zero : ZeroChange → SplitZero
  | .resolve zero _ | .separate zero _ _ => zero

namespace Method

/-! ## The plan -/

/-- What becomes of the open zeros. -/
def zeroPlan (m : Method) : List ZeroChange := zeroChanges m.useCounts.2 m.splitZeros m.locals.size

def freshZero? (plan : List ZeroChange) (x : LocalId) (kind : Kind) : Option LocalId :=
  plan.findSome? fun change =>
    match change with
    | .separate zero wanted fresh => if zero.id = x ∧ wanted = kind then some fresh else none
    | .resolve _ _ => none

/-- An operand with the local set aside in place of a zero. -/
def readZero (plan : List ZeroChange) (e : Expr) (want : Ty) : Expr :=
  match e.local? with
  | some x => ((freshZero? plan x want.kind).map Expr.read).getD e
  | none => e

def FillsZero (plan : List ZeroChange) (x y : LocalId) : Prop :=
  ∃ zero kind, .separate zero kind y ∈ plan ∧ zero.id = x

section Plan

variable {m : Method} {plan : List ZeroChange} {x y : LocalId} {kind : Kind}

theorem exists_of_freshZero? (found : freshZero? plan x kind = some y) :
    ∃ zero, .separate zero kind y ∈ plan ∧ zero.id = x := by
  obtain ⟨change, listed, same⟩ := exists_of_findSome?_eq_some found
  cases change with
  | resolve => cases same
  | separate zero wanted fresh =>
    dsimp only at same
    split at same
    next own =>
      obtain ⟨own, rfl⟩ := own
      exact ⟨zero, Option.some.inj same ▸ listed, own⟩
    · cases same

theorem redirects_readZero (plan : List ZeroChange) :
    Redirects (readZero plan) (FillsZero plan) := by
  intro e want
  unfold readZero
  cases read : e.local? with
  | none => exact .inl rfl
  | some x =>
    dsimp only
    cases found : freshZero? plan x want.kind with
    | none => exact .inl rfl
    | some y =>
      obtain ⟨zero, listed, own⟩ := exists_of_freshZero? found
      exact .inr ⟨x, y, rfl, ⟨zero, want.kind, listed, own⟩, rfl⟩

structure OpenZero (m : Method) (zero : SplitZero) : Prop where
  linked : zero.stmt ∈ m.order.toList
  defined : ∃ value, m.action zero.stmt = .assign zero.id value ∧ value.isZero = true ∧
    value.ownType.isConcrete = false

theorem openZero_of_openZero? {stmt : StmtId} (found : m.openZero? m.defs x = some stmt)
    (kinds : List Kind) : m.OpenZero { stmt, id := x, kinds } := by
  unfold openZero? at found
  split at found
  · cases found
  next noted =>
    split at found
    next target value action =>
      split at found
      next holds =>
        obtain rfl := Option.some.inj found
        rw [Bool.and_eq_true, Bool.not_eq_true'] at holds
        obtain ⟨linked, defines⟩ := m.mem_of_getD_defs noted
        rw [action] at defines
        obtain rfl := Option.some.inj defines
        exact ⟨linked, value, action, holds⟩
      · cases found
    · cases found

end Plan

/-! ## The changes one by one -/

section Changes

variable {phiUses : Array Nat} {zeros : List SplitZero} {zero other : SplitZero}
  {next fresh : LocalId} {kind wanted : Kind} {change : ZeroChange}

def separateKinds (zero : SplitZero) (kinds : List Kind) (next : LocalId) : List ZeroChange :=
  kinds.zipIdx.map fun (kind, i) => .separate zero kind (next + i)

theorem mem_separateKinds {kinds : List Kind} :
    change ∈ separateKinds zero kinds next ↔
      ∃ kind i, kinds[i]? = some kind ∧ change = .separate zero kind (next + i) := by
  constructor
  · intro member
    obtain ⟨⟨kind, i⟩, listed, rfl⟩ := mem_map.mp member
    exact ⟨kind, i, mem_zipIdx_iff_getElem?.mp listed, rfl⟩
  · rintro ⟨kind, i, found, rfl⟩
    exact mem_map.mpr ⟨(kind, i), mem_zipIdx_iff_getElem?.mpr found, rfl⟩

/-- A plan for some zeros, with locals from a number on: what is set aside is so for one kind of one
zero, and what is resolved becomes one kind. -/
structure Plans (zeros : List SplitZero) (next : LocalId) (plan : List ZeroChange) : Prop where
  listed : ∀ change ∈ plan, change.zero ∈ zeros
  fresh : ∀ zero kind y, .separate zero kind y ∈ plan → next ≤ y
  separates : ∀ zero kind other wanted y, .separate zero kind y ∈ plan →
    .separate other wanted y ∈ plan → other = zero ∧ wanted = kind
  resolves : ∀ zero kind wanted, .resolve zero kind ∈ plan → .resolve zero wanted ∈ plan →
    wanted = kind

theorem plans_nil : Plans zeros next [] := ⟨nofun, nofun, nofun, nofun⟩

theorem plans_separateKinds (zero : SplitZero) (kinds : List Kind) (next : LocalId) :
    Plans [zero] next (separateKinds zero kinds next) where
  listed := by
    intro change member
    obtain ⟨kind, i, -, rfl⟩ := mem_separateKinds.mp member
    exact mem_singleton.mpr rfl
  fresh := by
    intro zero kind y member
    obtain ⟨_, i, -, same⟩ := mem_separateKinds.mp member
    obtain ⟨-, -, rfl⟩ := ZeroChange.separate.inj same
    exact Nat.le_add_right ..
  separates := by
    intro one kind other wanted y member memberOther
    obtain ⟨_, i, found, same⟩ := mem_separateKinds.mp member
    obtain ⟨_, j, foundOther, sameOther⟩ := mem_separateKinds.mp memberOther
    obtain ⟨rfl, rfl, rfl⟩ := ZeroChange.separate.inj same
    obtain ⟨rfl, rfl, index⟩ := ZeroChange.separate.inj sameOther
    obtain rfl : i = j := Nat.add_left_cancel index
    exact ⟨rfl, Option.some.inj (foundOther.symm.trans found)⟩
  resolves := by
    intro zero kind wanted member
    obtain ⟨_, i, -, same⟩ := mem_separateKinds.mp member
    cases same

theorem Plans.resolve {plan : List ZeroChange} (plans : Plans [zero] next plan)
    (unresolved : ∀ kind, .resolve zero kind ∉ plan) :
    Plans [zero] next (.resolve zero kind :: plan) where
  listed := by
    intro change member
    rcases mem_cons.mp member with rfl | member
    · exact mem_singleton.mpr rfl
    · exact plans.listed change member
  fresh := by
    intro one wanted y member
    rcases mem_cons.mp member with contrary | member
    · cases contrary
    · exact plans.fresh _ _ _ member
  separates := by
    intro one wanted other wantedOther y member memberOther
    rcases mem_cons.mp member with contrary | member
    · cases contrary
    · rcases mem_cons.mp memberOther with contrary | memberOther
      · cases contrary
      · exact plans.separates _ _ _ _ _ member memberOther
  resolves := by
    have own : ∀ one wanted, .resolve one wanted ∈ .resolve zero kind :: plan → wanted = kind := by
      intro one wanted member
      rcases mem_cons.mp member with same | later
      · exact (ZeroChange.resolve.inj same).2
      · obtain rfl : one = zero := mem_singleton.mp (plans.listed _ later)
        exact absurd later (unresolved wanted)
    intro one wanted other member memberOther
    rw [own _ _ member, own _ _ memberOther]

theorem Plans.append {others : List SplitZero} {later : LocalId} {plan more : List ZeroChange}
    (plans : Plans zeros next plan) (le : next ≤ later)
    (below : ∀ zero kind y, .separate zero kind y ∈ plan → y < later)
    (plansMore : Plans others later more) (apart : ∀ zero ∈ zeros, zero ∉ others) :
    Plans (zeros ++ others) next (plan ++ more) where
  listed := by
    intro change member
    rw [mem_append] at member ⊢
    exact member.imp (plans.listed change) (plansMore.listed change)
  fresh := by
    intro zero kind y member
    rcases mem_append.mp member with member | member
    · exact plans.fresh _ _ _ member
    · exact le_trans le (plansMore.fresh _ _ _ member)
  separates := by
    intro zero kind other wanted y member memberOther
    rcases mem_append.mp member with member | member <;>
      rcases mem_append.mp memberOther with memberOther | memberOther
    · exact plans.separates _ _ _ _ _ member memberOther
    · exact absurd (below _ _ _ member) (Nat.not_lt.mpr (plansMore.fresh _ _ _ memberOther))
    · exact absurd (below _ _ _ memberOther) (Nat.not_lt.mpr (plansMore.fresh _ _ _ member))
    · exact plansMore.separates _ _ _ _ _ member memberOther
  resolves := by
    intro zero kind wanted member memberOther
    rcases mem_append.mp member with member | member <;>
      rcases mem_append.mp memberOther with memberOther | memberOther
    · exact plans.resolves _ _ _ member memberOther
    · exact absurd (plansMore.listed _ memberOther) (apart zero (plans.listed _ member))
    · exact absurd (plansMore.listed _ member) (apart zero (plans.listed _ memberOther))
    · exact plansMore.resolves _ _ _ member memberOther

def ownChanges (phiUses : Array Nat) (zero : SplitZero) (next : LocalId) : List ZeroChange :=
  match zero.kinds with
  | [] => []
  | first :: others =>
    if phiUses.getD zero.id 0 = 0 then .resolve zero first :: separateKinds zero others next
    else if others.isEmpty then [] else separateKinds zero zero.kinds next

theorem plans_ownChanges : Plans [zero] next (ownChanges phiUses zero next) := by
  unfold ownChanges
  split
  · exact plans_nil
  next first others kinds =>
    split
    · refine (plans_separateKinds zero others next).resolve fun kind member => ?_
      obtain ⟨_, _, -, same⟩ := mem_separateKinds.mp member
      cases same
    · split
      · exact plans_nil
      · exact plans_separateKinds zero _ next

theorem ownChanges_serves (phiUses : Array Nat) (next : LocalId) (wanted : kind ∈ zero.kinds) :
    .resolve zero kind ∈ ownChanges phiUses zero next ∨
      (∃ y, .separate zero kind y ∈ ownChanges phiUses zero next) ∨
        (phiUses.getD zero.id 0 ≠ 0 ∧ zero.kinds = [kind] ∧ ownChanges phiUses zero next = []) := by
  unfold ownChanges
  have separate : ∀ kinds : List Kind, kind ∈ kinds →
      ∃ y, .separate zero kind y ∈ separateKinds zero kinds next := by
    intro kinds member
    obtain ⟨i, found⟩ := mem_iff_getElem?.mp member
    exact ⟨_, mem_separateKinds.mpr ⟨kind, i, found, rfl⟩⟩
  split
  next kinds =>
    rw [kinds] at wanted
    cases wanted
  next first others kinds =>
    rw [kinds] at wanted ⊢
    split
    · rcases mem_cons.mp wanted with rfl | later
      · exact .inl mem_cons_self
      · obtain ⟨y, member⟩ := separate others later
        exact .inr (.inl ⟨y, .tail _ member⟩)
    next read =>
      split
      next alone =>
        obtain rfl := isEmpty_iff.mp alone
        obtain rfl := mem_singleton.mp wanted
        exact .inr (.inr ⟨read, rfl, rfl⟩)
      · exact .inr (.inl (separate _ wanted))

theorem zeroChanges_cons (phiUses : Array Nat) (zero : SplitZero) (zeros : List SplitZero)
    (next : LocalId) : ∃ later, zeroChanges phiUses (zero :: zeros) next =
        ownChanges phiUses zero next ++ zeroChanges phiUses zeros later ∧ next ≤ later ∧
      ∀ kind fresh, .separate zero kind fresh ∈ ownChanges phiUses zero next →
        next ≤ fresh ∧ fresh < later := by
  have numbered : ∀ {kinds : List Kind} {kind fresh},
      .separate zero kind fresh ∈ separateKinds zero kinds next →
        next ≤ fresh ∧ fresh < next + kinds.length := by
    intro kinds kind fresh member
    obtain ⟨⟨own, i⟩, listed, same⟩ := mem_map.mp member
    obtain ⟨-, -, rfl⟩ := ZeroChange.separate.inj same
    obtain ⟨-, bound, -⟩ := mem_zipIdx listed
    exact ⟨Nat.le_add_right .., Nat.add_lt_add_left (Nat.zero_add kinds.length ▸ bound) next⟩
  rw [zeroChanges, ownChanges]
  cases kinds : zero.kinds with
  | nil => exact ⟨next, rfl, le_rfl, nofun⟩
  | cons first others =>
    dsimp only
    split
    next unread =>
      refine ⟨_, rfl, Nat.le_add_right .., fun kind fresh member => ?_⟩
      rcases mem_cons.mp member with contrary | member
      · cases contrary
      · exact numbered member
    next read =>
      split
      · exact ⟨next, rfl, le_rfl, nofun⟩
      · exact ⟨_, rfl, Nat.le_add_right .., fun kind fresh => numbered⟩

theorem plans_zeroChanges (distinct : zeros.Nodup) :
    Plans zeros next (zeroChanges phiUses zeros next) := by
  induction zeros generalizing next with
  | nil => exact plans_nil
  | cons zero zeros ih =>
    obtain ⟨absent, distinct⟩ := nodup_cons.mp distinct
    obtain ⟨later, same, le, bounds⟩ := zeroChanges_cons phiUses zero zeros next
    have own : Plans [zero] next (ownChanges phiUses zero next) := plans_ownChanges
    rw [same]
    refine own.append le (fun one kind y member => ?_) (ih distinct) fun one member => ?_
    · obtain rfl := mem_singleton.mp (own.listed _ member)
      exact (bounds kind y member).2
    · rwa [mem_singleton.mp member]

/-- A kind that is wanted of one of the zeros is served, unless joins read the zero and it is the
only one. -/
theorem zeroChanges_serves (phiUses : Array Nat) (next : LocalId) (distinct : zeros.Nodup)
    (member : zero ∈ zeros) (wanted : kind ∈ zero.kinds) :
    .resolve zero kind ∈ zeroChanges phiUses zeros next ∨
      (∃ y, .separate zero kind y ∈ zeroChanges phiUses zeros next) ∨
        (phiUses.getD zero.id 0 ≠ 0 ∧ zero.kinds = [kind] ∧
          ∀ change ∈ zeroChanges phiUses zeros next, change.zero ≠ zero) := by
  induction zeros generalizing next with
  | nil => cases member
  | cons first zeros ih =>
    obtain ⟨absent, distinctRest⟩ := nodup_cons.mp distinct
    obtain ⟨later, same, -, -⟩ := zeroChanges_cons phiUses first zeros next
    simp only [same, mem_append]
    rcases mem_cons.mp member with rfl | member
    · rcases ownChanges_serves phiUses next wanted
        with resolved | ⟨y, separate⟩ | ⟨read, alone, none⟩
      · exact .inl (.inl resolved)
      · exact .inr (.inl ⟨y, .inl separate⟩)
      · refine .inr (.inr ⟨read, alone, ?_⟩)
        rw [none]
        rintro change (contrary | listed) own
        · cases contrary
        · rw [← own] at absent
          exact absent ((plans_zeroChanges distinctRest).listed change listed)
    · rcases ih later distinctRest member
        with resolved | ⟨y, separate⟩ | ⟨read, alone, none⟩
      · exact .inl (.inr resolved)
      · exact .inr (.inl ⟨y, .inr separate⟩)
      · refine .inr (.inr ⟨read, alone, ?_⟩)
        rintro change (own | listed)
        · have here := plans_ownChanges.listed change own
          rw [mem_singleton.mp here]
          rintro rfl
          exact absent member
        · exact none change listed

end Changes

/-! ## Carrying out the plan -/

theorem Tidy.addAfter {m : Method} (tidy : m.Tidy) {front back : List StmtId} {place : StmtId}
    (split : m.order.toList = front ++ place :: back) {s : Stmt} (plain : s.action.label? = none) :
    (m.addAfter place s).Tidy ∧
      (m.addAfter place s).order.toList = front ++ place :: m.stmts.size :: back ∧
      (m.addAfter place s).traps = m.traps ∧ (m.addAfter place s).action m.stmts.size = s.action ∧
      m.stmts.size < (m.addAfter place s).stmts.size ∧
      ∀ id, id < m.stmts.size → (m.addAfter place s).action id = m.action id := by
  have made := tidy.newStmt s
  have label : ((m.newStmt s).2.action m.stmts.size).label? = none := by
    rwa [action_newStmt_self]
  have same : m.addAfter place s = { (m.newStmt s).2 with
      order := (front ++ place :: m.stmts.size :: back).toArray } :=
    insertAfter_plain made split label
  have stmts : (m.addAfter place s).stmts = (m.newStmt s).2.stmts := by rw [same]
  have order : (m.addAfter place s).order.toList = front ++ place :: m.stmts.size :: back := by
    rw [same]
  have new : m.stmts.size ∉ m.order.toList := fun listed =>
    absurd (tidy.made _ listed) (lt_irrefl _)
  refine ⟨?_, order, by rw [same]; rfl, ?_, by rw [stmts, newStmt_size]; exact Nat.lt_succ_self _,
    fun id old => ?_⟩
  · have linked : (m.newStmt s).2.order.toList = (front ++ [place]) ++ back := by
      rw [newStmt_order, split]
      simp
    refine made.insert_other linked (by rw [order]; simp) (by rw [same]; exact made.plain)
      stmts (by rw [same]) new (by rw [newStmt_size]; exact Nat.lt_succ_self _) label
  · rw [action_congr stmts]
    exact action_newStmt_self m s
  · rw [action_congr stmts, action_newStmt_of_lt old]

/-- What has become of a method when some changes have been carried out. -/
structure ZerosPut (m : Method) (change : Expr → Ty → Expr) (done : List ZeroChange)
    (more : StmtId → List StmtId) (p : Method) : Prop where
  tidy : p.Tidy
  traps : p.traps = m.traps
  order : p.order.toList = spread more m.order.toList
  opened : ∀ change ∈ done, m.OpenZero change.zero
  size : m.stmts.size ≤ p.stmts.size
  own : ∀ id ∈ m.order.toList, p.action id = m.mapOperands change (m.action id) ∨
    ∃ zero kind, .resolve zero kind ∈ done ∧ zero.stmt = id ∧
      p.action id = .assign zero.id (zeroOf { kind })
  resolved : ∀ zero kind, .resolve zero kind ∈ done → ∃ other wanted, .resolve other wanted ∈ done ∧
    other.stmt = zero.stmt ∧ p.action zero.stmt = .assign other.id (zeroOf { kind := wanted })
  new : ∀ id, ∀ e ∈ more id, m.stmts.size ≤ e ∧ e < p.stmts.size
  put : ∀ id, ∀ e ∈ more id, ∃ zero kind y, .separate zero kind y ∈ done ∧ zero.stmt = id ∧
    p.action e = .assign y (zeroOf { kind })
  separated : ∀ zero kind y, .separate zero kind y ∈ done →
    ∃ e ∈ more zero.stmt, p.action e = .assign y (zeroOf { kind })

namespace ZerosPut

variable {m p : Method} {change : Expr → Ty → Expr} {done : List ZeroChange}
  {more : StmtId → List StmtId} {zero : SplitZero} {kind : Kind}

theorem start (tidy : m.Tidy) :
    ZerosPut m change [] (fun _ => []) (m.mapActions (m.mapOperands change)) := by
  obtain ⟨stmts, size, same, each⟩ := mapActions_with tidy (m.mapOperands change)
  refine ⟨tidy.mapActions label?_mapOperands, by rw [same], ?_, nofun, by rw [same, size],
    fun id listed => .inl ?_, nofun, nofun, nofun, nofun⟩
  · rw [same, spread, flatMap_singleton']
  · rw [each, if_pos listed]

variable (state : ZerosPut m change done more p)

include state

theorem linked {id : StmtId} (listed : id ∈ m.order.toList) : id ∈ p.order.toList := by
  rw [state.order, spread, mem_flatMap]
  exact ⟨id, listed, mem_cons_self⟩

variable (tidy : m.Tidy) (opened : m.OpenZero zero)

include opened

theorem assigns : ∃ value, p.action zero.stmt = .assign zero.id value := by
  obtain ⟨value, action, -⟩ := opened.defined
  rcases state.own _ opened.linked with same | ⟨other, kind, resolved, stmt, same⟩
  · rw [action] at same
    exact ⟨_, same⟩
  · obtain ⟨otherValue, otherAction, -⟩ := (state.opened _ resolved).defined
    have sameStmt : m.action other.stmt = m.action zero.stmt := by rw [stmt]
    have own : other.id = zero.id :=
      (Action.assign.inj (otherAction.symm.trans (sameStmt.trans action))).1
    exact ⟨_, own ▸ same⟩

include tidy

theorem resolve (kind : Kind) : ZerosPut m change (done ++ [.resolve zero kind]) more
    (p.applyZeroChange (.resolve zero kind)) := by
  obtain ⟨value, action⟩ := state.assigns opened
  let q := p.setLocalType zero.id { kind }
  have same : p.applyZeroChange (.resolve zero kind) =
      q.setAction zero.stmt (.assign zero.id (zeroOf { kind })) := by
    have actionThere : q.action zero.stmt = .assign zero.id value := action
    unfold applyZeroChange
    dsimp only
    rw [show (p.setLocalType zero.id { kind }).action zero.stmt = _ from actionThere]
  have tidyThere : q.Tidy := state.tidy.of_same_labels state.tidy.plain state.tidy.nodup
    state.tidy.made (fun _ _ => Iff.rfl) fun _ => rfl
  have made : zero.stmt < p.stmts.size := state.tidy.made _ (state.linked opened.linked)
  have each : ∀ id, (p.applyZeroChange (.resolve zero kind)).action id =
      if id = zero.stmt then .assign zero.id (zeroOf { kind }) else p.action id := by
    intro id
    rw [same, action_setAction]
    by_cases own : id = zero.stmt
    · rw [if_pos ⟨own, own ▸ made⟩, if_pos own]
    · rw [if_neg fun both => own both.1, if_neg own]
      rfl
  have apart : ∀ id, ∀ e ∈ more id, e ≠ zero.stmt := by
    rintro id e member rfl
    exact absurd (tidy.made _ opened.linked) (Nat.not_lt.mpr (state.new id _ member).1)
  exact {
    tidy := by
      rw [same]
      refine tidyThere.setAction ?_ rfl
      rw [show q.action zero.stmt = _ from action]
      rfl
    traps := by
      rw [same]
      exact state.traps
    order := by
      rw [same]
      exact state.order
    opened := by
      intro change member
      rcases mem_append.mp member with earlier | own
      · exact state.opened change earlier
      · rwa [mem_singleton.mp own]
    size := by
      rw [same, setAction_size]
      exact state.size
    own := by
      intro id listed
      rw [each]
      split
      next own => exact .inr ⟨zero, kind, mem_append_right _ mem_cons_self, own.symm, rfl⟩
      · refine (state.own id listed).imp_right ?_
        rintro ⟨other, wanted, earlier, rest⟩
        exact ⟨other, wanted, mem_append_left _ earlier, rest⟩
    resolved := by
      intro other wanted member
      rw [each]
      split
      next own => exact ⟨zero, kind, mem_append_right _ mem_cons_self, own.symm, rfl⟩
      next different =>
        rcases mem_append.mp member with earlier | own
        · obtain ⟨first, kindFirst, listed, rest⟩ := state.resolved other wanted earlier
          exact ⟨first, kindFirst, mem_append_left _ listed, rest⟩
        · obtain ⟨rfl, -⟩ := ZeroChange.resolve.inj (mem_singleton.mp own)
          exact absurd rfl different
    new := by
      intro id e member
      rw [same, setAction_size]
      exact state.new id e member
    put := by
      intro id e member
      obtain ⟨other, wanted, y, earlier, stmt, action⟩ := state.put id e member
      refine ⟨other, wanted, y, mem_append_left _ earlier, stmt, ?_⟩
      rw [each, if_neg (apart id e member), action]
    separated := by
      intro other wanted y member
      rcases mem_append.mp member with earlier | contrary
      · obtain ⟨e, listed, action⟩ := state.separated other wanted y earlier
        refine ⟨e, listed, ?_⟩
        rw [each, if_neg (apart _ e listed), action]
      · cases mem_singleton.mp contrary }

theorem separate (kind : Kind) (y : LocalId) : ∃ more',
    ZerosPut m change (done ++ [.separate zero kind y]) more'
      (p.applyZeroChange (.separate zero kind y)) := by
  let q := (p.newLocal { kind }).2
  let n := p.applyZeroChange (.separate zero kind y)
  obtain ⟨front, back, split⟩ := append_of_mem opened.linked
  have splitThere : q.order.toList =
      spread more front ++ zero.stmt :: (more zero.stmt ++ spread more back) := by
    show p.order.toList = _
    rw [state.order, split]
    simp [spread]
  obtain ⟨tidyThere, order, traps, action, size, each⟩ := (state.tidy.newLocal { kind }).addAfter
    splitThere (s := ⟨.assign y (zeroOf { kind }), (q.stmt zero.stmt).line⟩) rfl
  let more' (id : StmtId) : List StmtId := if id = zero.stmt then p.stmts.size :: more id else more id
  have others : ∀ ids : List StmtId, zero.stmt ∉ ids → spread more' ids = spread more ids := by
    intro ids absent
    refine flatMap_congr fun id member => ?_
    have different : id ≠ zero.stmt := fun same => absent (same ▸ member)
    simp only [more', if_neg different]
  have mem_more' : ∀ {id e}, e ∈ more' id → id = zero.stmt ∧ e = p.stmts.size ∨ e ∈ more id := by grind
  have more_sub : ∀ {id e}, e ∈ more id → e ∈ more' id := by grind
  have nodup := nodup_middle.mp (split ▸ tidy.nodup)
  have absent := (nodup_cons.mp nodup).1
  rw [mem_append, not_or] at absent
  have kept : ∀ id ∈ m.order.toList, n.action id = p.action id := fun id listed =>
    each id (state.tidy.made _ (state.linked listed))
  have keptMore : ∀ id, ∀ e ∈ more id, n.action e = p.action e := fun id e member =>
    each e (state.new id e member).2
  exact ⟨more', {
    tidy := tidyThere
    traps := traps.trans state.traps
    order := by
      refine order.trans ?_
      rw [split]
      show _ = flatMap _ _
      have front_ := others front absent.1
      have back_ := others back absent.2
      unfold spread at front_ back_ ⊢
      rw [flatMap_append, flatMap_cons, front_, back_]
      simp [more']
    opened := by
      intro change member
      rcases mem_append.mp member with earlier | own
      · exact state.opened change earlier
      · rwa [mem_singleton.mp own]
    size := le_trans state.size (le_of_lt size)
    own := by
      intro id listed
      refine ((kept id listed).symm ▸ state.own id listed).imp_right ?_
      rintro ⟨other, wanted, earlier, rest⟩
      exact ⟨other, wanted, mem_append_left _ earlier, rest⟩
    resolved := by
      intro other wanted member
      rcases mem_append.mp member with earlier | contrary
      · obtain ⟨first, kindFirst, listed, stmt, action⟩ := state.resolved other wanted earlier
        exact ⟨first, kindFirst, mem_append_left _ listed, stmt,
          (kept _ (state.opened _ earlier).linked).trans action⟩
      · cases mem_singleton.mp contrary
    new := by
      intro id e member
      rcases mem_more' member with ⟨-, rfl⟩ | member
      · exact ⟨state.size, size⟩
      · obtain ⟨first, second⟩ := state.new id e member
        exact ⟨first, lt_trans second size⟩
    put := by
      intro id e member
      rcases mem_more' member with ⟨rfl, rfl⟩ | member
      · exact ⟨zero, kind, y, mem_append_right _ mem_cons_self, rfl, action⟩
      · obtain ⟨other, wanted, z, earlier, stmt, action⟩ := state.put id e member
        exact ⟨other, wanted, z, mem_append_left _ earlier, stmt,
          (keptMore id e member).trans action⟩
    separated := by
      intro other wanted z member
      rcases mem_append.mp member with earlier | own
      · obtain ⟨e, listed, action⟩ := state.separated other wanted z earlier
        exact ⟨e, more_sub listed, (keptMore _ e listed).trans action⟩
      · obtain ⟨rfl, rfl, rfl⟩ := ZeroChange.separate.inj (mem_singleton.mp own)
        exact ⟨p.stmts.size, by simp [more'], action⟩ }⟩

omit opened

theorem all {plan : List ZeroChange} (opened : ∀ change ∈ plan, m.OpenZero change.zero) :
    ∃ more', ZerosPut m change (done ++ plan) more' (plan.foldl applyZeroChange p) := by
  induction plan generalizing done more p with
  | nil => exact ⟨more, (append_nil done).symm ▸ state⟩
  | cons first plan ih =>
    have later : ∀ change ∈ plan, m.OpenZero change.zero := fun change member =>
      opened change (.tail _ member)
    have own := opened first mem_cons_self
    have next : ∃ more', ZerosPut m change (done ++ [first]) more' (p.applyZeroChange first) := by
      cases first with
      | resolve zero kind => exact ⟨more, state.resolve tidy own kind⟩
      | separate zero kind y => exact state.separate tidy own kind y
    obtain ⟨between, next⟩ := next
    obtain ⟨last, result⟩ := ih next later
    rw [append_assoc] at result
    exact ⟨last, result⟩

end ZerosPut

section Split

variable {m : Method} {x y : LocalId} {zero other : SplitZero} {kind : Kind}

def wantedZeros (m : Method) : List (LocalId × Kind) :=
  (m.actions.flatMap m.operands).filterMap fun o =>
    match o.expr.local? with
    | some id =>
      if o.expected.kind.isConcrete && (m.openZero? m.defs id).isSome then some (id, o.expected.kind)
      else none
    | none => none

def wantedKinds (m : Method) (x : LocalId) : List Kind :=
  (m.wantedZeros.filter fun w => w.1 == x).map Prod.snd

def splitZero? (m : Method) (x : LocalId) : Option SplitZero :=
  if (m.wantedKinds x).isEmpty then none
  else
    (m.openZero? m.defs x).map fun stmt =>
      ⟨stmt, x, [Kind.int, .float, .long, .double, .ref].filter (m.wantedKinds x).contains⟩

theorem splitZeros_eq (m : Method) :
    m.splitZeros = (range m.locals.size).filterMap m.splitZero? := rfl

theorem splitZero?_eq_some (found : m.splitZero? x = some zero) : zero.id = x ∧
    m.openZero? m.defs x = some zero.stmt ∧
      zero.kinds = [Kind.int, .float, .long, .double, .ref].filter (m.wantedKinds x).contains := by
  unfold splitZero? at found
  split at found
  · cases found
  · obtain ⟨stmt, opened, rfl⟩ := Option.map_eq_some_iff.mp found
    exact ⟨rfl, opened, rfl⟩

theorem mem_splitZeros :
    zero ∈ m.splitZeros ↔ zero.id < m.locals.size ∧ m.splitZero? zero.id = some zero := by
  rw [splitZeros_eq, mem_filterMap]
  constructor
  · rintro ⟨x, inside, found⟩
    obtain ⟨rfl, -⟩ := splitZero?_eq_some found
    exact ⟨mem_range.mp inside, found⟩
  · rintro ⟨inside, found⟩
    exact ⟨_, mem_range.mpr inside, found⟩

theorem openZero_of_mem (member : zero ∈ m.splitZeros) : m.OpenZero zero := by
  obtain ⟨-, opened, -⟩ := splitZero?_eq_some (mem_splitZeros.mp member).2
  exact openZero_of_openZero? opened zero.kinds

theorem eq_of_mem_splitZeros (member : zero ∈ m.splitZeros) (memberOther : other ∈ m.splitZeros)
    (same : other.id = zero.id) : other = zero := by
  have found := (mem_splitZeros.mp member).2
  have foundOther := (mem_splitZeros.mp memberOther).2
  rw [same, found] at foundOther
  exact (Option.some.inj foundOther).symm

theorem nodup_splitZeros (m : Method) : m.splitZeros.Nodup := by
  rw [splitZeros_eq]
  refine nodup_range.filterMap fun x y zero found foundOther => ?_
  rw [← (splitZero?_eq_some found).1, ← (splitZero?_eq_some foundOther).1]

theorem plans_zeroPlan (m : Method) : Plans m.splitZeros m.locals.size m.zeroPlan :=
  plans_zeroChanges m.nodup_splitZeros

end Split

theorem canThrow_assign_zeroOf (x : LocalId) (kind : Kind) :
    (Action.assign x (zeroOf { kind })).canThrow = false := by
  unfold zeroOf
  split <;> rfl

section Supplied

variable {m : Method} (inSsa : m.InSsa)

include inSsa

theorem InSsa.zerosPut : ∃ more,
    ZerosPut m (readZero m.zeroPlan) m.zeroPlan more m.splitZeroConstants := by
  have opened : ∀ change ∈ m.zeroPlan, m.OpenZero change.zero := fun change member =>
    openZero_of_mem (m.plans_zeroPlan.listed change member)
  exact (ZerosPut.start inSsa.tidy).all inSsa.tidy opened

variable {more : StmtId → List StmtId}
  (state : ZerosPut m (readZero m.zeroPlan) m.zeroPlan more m.splitZeroConstants)

include state

theorem InSsa.supplies_splitZeroConstants :
    m.Supplies m.splitZeroConstants more (FillsZero m.zeroPlan) where
  tidy := state.tidy
  traps := state.traps
  order := state.order
  form := by
    intro id listed
    rcases state.own id listed with same | ⟨zero, kind, resolved, rfl, same⟩
    · rw [same]
      exact (redirects_readZero m.zeroPlan).sameForm
        (inSsa.proper.operands _ (mem_map_of_mem listed))
    · obtain ⟨value, action, -⟩ := (state.opened _ resolved).defined
      have before : m.action zero.stmt = .assign zero.id value := action
      rw [before, same]
      refine ⟨rfl, rfl, rfl, rfl, rfl, rfl, fun throws => ?_, rfl⟩
      rw [canThrow_assign_zeroOf] at throws
      cases throws
  joins := by
    intro id listed single
    rcases state.own id listed with same | ⟨zero, kind, resolved, rfl, -⟩
    · rw [same]
      cases action : m.action id with
      | phi => rfl
      | _ =>
        rw [action] at single
        cases single
    · obtain ⟨value, action, -⟩ := (state.opened _ resolved).defined
      have before : m.action zero.stmt = .assign zero.id value := action
      rw [before] at single
      cases single
  behind := by
    intro id listed some
    obtain ⟨e, member⟩ := exists_mem_of_ne_nil _ some
    obtain ⟨zero, kind, y, separate, rfl, -⟩ := state.put id e member
    obtain ⟨value, action, -⟩ := (state.opened _ separate).defined
    exact ⟨_, _, action⟩
  sets := by
    intro id listed e member
    obtain ⟨zero, kind, y, separate, -, action⟩ := state.put id e member
    exact ⟨y, m.plans_zeroPlan.fresh _ _ _ separate, kind, action⟩
  filled := by
    rintro x y ⟨zero, kind, separate, rfl⟩
    refine ⟨m.plans_zeroPlan.fresh _ _ _ separate, fun id listed defines => ?_⟩
    have opened := state.opened _ separate
    obtain ⟨value, action, isZero, -⟩ := opened.defined
    obtain ⟨e, member, set⟩ := state.separated _ _ _ separate
    have before : m.action zero.stmt = .assign zero.id value := action
    obtain rfl : id = zero.stmt := inSsa.eq_of_defines listed opened.linked defines (by
      rw [before]
      rfl)
    exact ⟨⟨value, before, isZero⟩, e, member, kind, set⟩

theorem InSsa.sameWork_splitZeroConstants {V : Type} {w : World V} {null : V}
    (zeros : w.HasZero null) : SameWork w null m m.splitZeroConstants (FillsZero m.zeroPlan) := by
  intro id listed single
  have found : m.action id ∈ m.actions := mem_map_of_mem listed
  rcases state.own id listed with same | ⟨zero, kind, resolved, rfl, same⟩
  · rw [same]
    exact ⟨fun env other caught history r supplied => (redirects_readZero m.zeroPlan).evaluate_inputs
      supplied (inSsa.proper.operands _ found), conclude_mapOperands _⟩
  · obtain ⟨value, action, isZero, -⟩ := (state.opened _ resolved).defined
    have before : m.action zero.stmt = .assign zero.id value := action
    rw [before] at found
    rw [before, same]
    refine ⟨fun env other caught history r supplied done => ?_, fun history values => ?_⟩
    · have first : evaluateAll w env caught history [value] = some (history, .ok [null]) := by
        rw [evaluateAll_single, inSsa.evaluate_isZero zeros found isZero]
        rfl
      have second : evaluateAll w other caught history [zeroOf { kind }] =
          some (history, .ok [null]) := by
        rw [evaluateAll_single, evaluate_zeroOf zeros]
        rfl
      exact second.trans (first.symm.trans done)
    · cases values <;> rfl

/-! ## Kinds -/

def IsZeroOf (n : Method) (y : LocalId) (kind : Kind) : Prop :=
  ∀ a, a ∈ n.actions ∧ a.defines? = some y ↔ a = .assign y (zeroOf { kind })

omit inSsa in
theorem ZerosPut.exists_of_mem {b : Action} (member : b ∈ m.splitZeroConstants.actions) :
    (∃ id ∈ m.order.toList, b = m.splitZeroConstants.action id) ∨
      ∃ zero kind y, .separate zero kind y ∈ m.zeroPlan ∧ b = .assign y (zeroOf { kind }) := by
  obtain ⟨e, listed, rfl⟩ := mem_map.mp member
  rw [state.order, spread, mem_flatMap] at listed
  obtain ⟨id, linked, here⟩ := listed
  rcases mem_cons.mp here with rfl | put
  · exact .inl ⟨e, linked, rfl⟩
  · obtain ⟨zero, kind, y, separate, -, action⟩ := state.put id e put
    exact .inr ⟨zero, kind, y, separate, action⟩

theorem InSsa.isZeroOf_separate {zero : SplitZero} {kind : Kind} {y : LocalId}
    (separate : .separate zero kind y ∈ m.zeroPlan) : m.splitZeroConstants.IsZeroOf y kind := by
  have supplies := inSsa.supplies_splitZeroConstants state
  intro b
  constructor
  · rintro ⟨member, defines⟩
    rcases state.exists_of_mem member with ⟨id, listed, rfl⟩ | ⟨other, wanted, z, found, rfl⟩
    · rw [(supplies.form id listed).defines] at defines
      exact absurd (inSsa.known _ (mem_map_of_mem listed) y defines)
        (Nat.not_lt.mpr (m.plans_zeroPlan.fresh _ _ _ separate))
    · obtain rfl : z = y := Option.some.inj defines
      rw [(m.plans_zeroPlan.separates _ _ _ _ _ separate found).2]
  · rintro rfl
    obtain ⟨e, listed, action⟩ := state.separated _ _ _ separate
    refine ⟨mem_map.mpr ⟨e, ?_, action⟩, rfl⟩
    rw [state.order, spread, mem_flatMap]
    exact ⟨_, (state.opened _ separate).linked, .tail _ listed⟩

theorem InSsa.isZeroOf_resolve {zero : SplitZero} {kind : Kind}
    (resolve : .resolve zero kind ∈ m.zeroPlan) : m.splitZeroConstants.IsZeroOf zero.id kind := by
  have supplies := inSsa.supplies_splitZeroConstants state
  have opened : m.OpenZero zero := state.opened _ resolve
  obtain ⟨value, before, -⟩ := opened.defined
  obtain ⟨other, wanted, found, stmt, action⟩ := state.resolved _ _ resolve
  have same : other = zero := by
    obtain ⟨_, beforeOther, -⟩ := (state.opened _ found).defined
    have there : m.action other.stmt = .assign other.id _ := beforeOther
    rw [stmt, before] at there
    exact eq_of_mem_splitZeros (m.plans_zeroPlan.listed _ resolve) (m.plans_zeroPlan.listed _ found)
      (Action.assign.inj there).1.symm
  subst same
  rw [m.plans_zeroPlan.resolves _ _ _ resolve found] at action
  intro b
  constructor
  · rintro ⟨member, defines⟩
    rcases state.exists_of_mem member with ⟨id, listed, rfl⟩ | ⟨_, _, z, separate, rfl⟩
    · rw [(supplies.form id listed).defines] at defines
      rw [inSsa.eq_of_defines listed opened.linked defines (by rw [before]; rfl), action]
    · obtain rfl : z = other.id := Option.some.inj defines
      have inside := inSsa.known _ (mem_map_of_mem opened.linked) other.id (by
        rw [before]
        rfl)
      exact absurd inside (Nat.not_lt.mpr (m.plans_zeroPlan.fresh _ _ _ separate))
  · rintro rfl
    refine ⟨mem_map.mpr ⟨_, ?_, action⟩, rfl⟩
    exact supplies.mem_of_mem opened.linked

end Supplied

structure KindsMet (m n : Method) (read : Expr → Ty → Expr) : Prop where
  own : ∀ id ∈ m.order.toList, n.action id = m.mapOperands read (m.action id) ∨
    ∃ x value kind, m.action id = .assign x value ∧ value.isZero = true ∧
      n.action id = .assign x (zeroOf { kind })
  met : ∀ a ∈ m.actions, ∀ o ∈ m.operands a, ∀ x, o.expr.local? = some x →
    o.expected.kind ∈ [Kind.int, .float, .long, .double, .ref] →
    (∃ zero, m.OpenZero zero ∧ zero.id = x) →
    (∃ y, (read o.expr o.expected).local? = some y ∧ n.IsZeroOf y o.expected.kind) ∨
      read o.expr o.expected = o.expr ∧ (∃ b ∈ m.actions, ∃ arg ∈ b.phiArgs, arg.value = x) ∧
        ∀ b ∈ m.actions, ∀ other ∈ m.operands b, other.expr.local? = some x →
          other.expected.kind ∈ [Kind.int, .float, .long, .double, .ref] →
          other.expected.kind = o.expected.kind

section Kinds

variable {m : Method} {x : LocalId} {stmt : StmtId} {kind : Kind}

theorem mem_wantedKinds (found : m.openZero? m.defs x = some stmt) :
    kind ∈ m.wantedKinds x ↔ kind.isConcrete = true ∧
      ∃ a ∈ m.actions, ∃ o ∈ m.operands a, o.expr.local? = some x ∧ o.expected.kind = kind := by
  have wanted : (x, kind) ∈ m.wantedZeros ↔ kind.isConcrete = true ∧
      ∃ a ∈ m.actions, ∃ o ∈ m.operands a, o.expr.local? = some x ∧ o.expected.kind = kind := by
    unfold wantedZeros
    rw [mem_filterMap]
    constructor
    · rintro ⟨o, listed, made⟩
      obtain ⟨a, member, operand⟩ := mem_flatMap.mp listed
      split at made
      next y reads =>
        split at made
        next holds =>
          obtain ⟨rfl, rfl⟩ := Prod.mk.inj (Option.some.inj made)
          rw [Bool.and_eq_true] at holds
          exact ⟨holds.1, a, member, o, operand, reads, rfl⟩
        · cases made
      · cases made
    · rintro ⟨concrete, a, member, o, operand, reads, rfl⟩
      refine ⟨o, mem_flatMap.mpr ⟨a, member, operand⟩, ?_⟩
      rw [reads]
      dsimp only
      rw [found, concrete]
      rfl
  rw [← wanted, wantedKinds, mem_map]
  constructor
  · rintro ⟨⟨y, _⟩, listed, rfl⟩
    obtain ⟨member, own⟩ := mem_filter.mp listed
    obtain rfl : y = x := by simpa using own
    exact member
  · intro listed
    exact ⟨(x, kind), mem_filter.mpr ⟨listed, by simp⟩, rfl⟩

theorem exists_splitZero (found : m.openZero? m.defs x = some stmt) (inside : x < m.locals.size)
    (wanted : kind ∈ m.wantedKinds x) : ∃ zero ∈ m.splitZeros, zero.id = x ∧
      ∀ other, other ∈ zero.kinds ↔
        other ∈ [Kind.int, .float, .long, .double, .ref] ∧ other ∈ m.wantedKinds x := by
  have split : m.splitZero? x = some
      ⟨stmt, x, [Kind.int, .float, .long, .double, .ref].filter (m.wantedKinds x).contains⟩ := by
    have some : ¬ (m.wantedKinds x).isEmpty = true := by grind
    rw [splitZero?, if_neg some, found]
    rfl
  refine ⟨⟨stmt, x, [Kind.int, .float, .long, .double, .ref].filter (m.wantedKinds x).contains⟩,
    mem_splitZeros.mpr ⟨inside, split⟩, rfl, fun other => ?_⟩
  rw [mem_filter, contains_iff_mem]

theorem InSsa.openZero?_eq (inSsa : m.InSsa) {zero : SplitZero} (opened : m.OpenZero zero) :
    zero.id < m.locals.size ∧ m.openZero? m.defs zero.id = some zero.stmt := by
  obtain ⟨value, action, isZero, concrete⟩ := opened.defined
  have defines : (m.action zero.stmt).defines? = some zero.id := by
    rw [action]
    rfl
  have inside := inSsa.known _ (mem_map_of_mem opened.linked) _ defines
  obtain ⟨noted, found⟩ := m.exists_getD_defs inside opened.linked defines
  obtain ⟨linked, definesNoted⟩ := m.mem_of_getD_defs found
  obtain rfl := inSsa.eq_of_defines linked opened.linked definesNoted defines
  refine ⟨inside, ?_⟩
  unfold openZero?
  rw [found]
  dsimp only
  rw [action]
  dsimp only
  rw [isZero, concrete]
  rfl

/-- Each reader that wants an open zero as a kind reads a zero of this kind afterwards. A zero that
joins read too, and that is wanted as one kind only, stays what it was for all its readers. -/
theorem InSsa.kindsMet_splitZeroConstants (inSsa : m.InSsa) :
    m.KindsMet m.splitZeroConstants (readZero m.zeroPlan) := by
  obtain ⟨more, state⟩ := inSsa.zerosPut
  refine ⟨fun id listed => ?_, ?_⟩
  · refine (state.own id listed).imp_right ?_
    rintro ⟨zero, kind, resolve, rfl, action⟩
    obtain ⟨value, before, isZero, -⟩ := (state.opened _ resolve).defined
    exact ⟨zero.id, value, kind, before, isZero, action⟩
  rintro a listed o operand x reads resolved ⟨opened, isOpen, same⟩
  have concrete : ∀ kind ∈ [Kind.int, .float, .long, .double, .ref], kind.isConcrete = true := by
    decide
  obtain ⟨inside, found⟩ := inSsa.openZero?_eq isOpen
  rw [same] at inside found
  have wanted : o.expected.kind ∈ m.wantedKinds x :=
    (mem_wantedKinds found).mpr ⟨concrete _ resolved, a, listed, o, operand, reads, rfl⟩
  obtain ⟨zero, member, rfl, kinds⟩ := exists_splitZero found inside wanted
  unfold readZero
  rw [reads]
  dsimp only
  cases fresh : freshZero? m.zeroPlan zero.id o.expected.kind with
  | some y =>
    obtain ⟨other, separate, -⟩ := exists_of_freshZero? fresh
    exact .inl ⟨y, rfl, inSsa.isZeroOf_separate state separate⟩
  | none =>
    rcases zeroChanges_serves m.useCounts.2 m.locals.size m.nodup_splitZeros member
      ((kinds _).mpr ⟨resolved, wanted⟩) with resolve | ⟨y, separate⟩ | ⟨read, alone, none⟩
    · exact .inl ⟨zero.id, reads, inSsa.isZeroOf_resolve state resolve⟩
    · have contrary := findSome?_eq_none_iff.mp fresh _ separate
      simp at contrary
    · refine .inr ⟨rfl, ?_, ?_⟩
      · rw [getD_useCounts_joined, if_pos inside] at read
        obtain ⟨b, there, joins⟩ := mem_flatMap.mp (count_pos_iff.mp (Nat.pos_of_ne_zero read))
        obtain ⟨arg, picked, same⟩ := mem_map.mp joins
        exact ⟨b, there, arg, picked, same⟩
      · intro b there other operandOther readsOther resolvedOther
        have more := (kinds _).mpr ⟨resolvedOther, (mem_wantedKinds found).mpr
          ⟨concrete _ resolvedOther, b, there, other, operandOther, readsOther, rfl⟩⟩
        rw [alone] at more
        exact mem_singleton.mp more

end Kinds

end Method

end DexLift.Ir
