import DexLift.Proofs.Lower.Joins
import DexLift.Proofs.Lower.Linking

/-!
# Deciding the joins

When all blocks are linked, every join is one of three things. It is dropped,
when on some way in its register holds nothing or a dropped join. It is replaced,
when all ways in hold the same value. Or it stays, with one operand for each way
in from a reached block. A statement that reads a replaced join reads what stands
for it; no statement reads a dropped one, or lowering fails.
-/

namespace DexLift.Lower

open Ir List

/-! ## Operands -/

variable {done : Progress} {m filled : Ir.Method} {p : PendingPhi} {isOpen : Bool}
  {pending : List (PendingPhi × Bool)} {dropped : LocalSet} {whole kept : List PendingPhi}
  {subst : Substitution}

def sourceLabel (plan : Plan) (entry : Entry) (e : Edge) : Label :=
  (e.source.map fun s => (plan.block s).label).getD entry.label

def operandOf (plan : Plan) (entry : Entry) (e : Edge) (value : LocalId) : PhiArg :=
  { pred := sourceLabel plan entry e, value, exceptional := e.exceptional }

theorem known_iff {e : Edge} :
    (e.source.all fun s => (followed? done s).isSome) = true ↔ Known done e := by
  unfold Known
  cases e.source with
  | none => simp
  | some source => simp

theorem phiOperands_spec (plan : Plan) (entry : Entry) (done : Progress) (reg : Nat)
    (edges : List Edge) :
    (∀ a ∈ (phiOperands plan entry done reg edges).1, ∃ e ∈ edges, Known done e ∧
      ∃ value, (registersAlong entry done e).getD reg none = some value ∧
        a = operandOf plan entry e value) ∧
    ((phiOperands plan entry done reg edges).2 = false → ∀ e ∈ edges, Known done e →
      ∃ value, (registersAlong entry done e).getD reg none = some value ∧
        operandOf plan entry e value ∈ (phiOperands plan entry done reg edges).1) := by
  induction edges with
  | nil => simp [phiOperands]
  | cons e rest ih =>
    obtain ⟨sources, ways⟩ := ih
    unfold phiOperands
    dsimp only
    by_cases known : Known done e
    · have reached : (e.source.all fun s => ((done[s]?).join).isSome) = true := known_iff.mpr known
      rw [reached, if_neg (by simp)]
      cases held : (registersAlong entry done e).getD reg none with
      | none => simp
      | some value =>
        refine ⟨?_, ?_⟩
        · intro a member
          rcases mem_cons.mp member with rfl | later
          · exact ⟨e, by simp, known, value, held, rfl⟩
          · obtain ⟨source, inside, facts⟩ := sources a later
            exact ⟨source, mem_cons_of_mem _ inside, facts⟩
        · intro closed other member reachedOther
          rcases mem_cons.mp member with rfl | later
          · exact ⟨value, held, mem_cons_self⟩
          · obtain ⟨found, holds, listed⟩ := ways closed other later reachedOther
            exact ⟨found, holds, mem_cons_of_mem _ listed⟩
    · have unreached : (e.source.all fun s => ((done[s]?).join).isSome) = false := by
        rw [Bool.eq_false_iff]
        exact fun reached => known (known_iff.mp reached)
      rw [unreached, if_pos (by simp)]
      refine ⟨?_, ?_⟩
      · intro a member
        obtain ⟨source, inside, facts⟩ := sources a member
        exact ⟨source, mem_cons_of_mem _ inside, facts⟩
      · intro closed other member reachedOther
        rcases mem_cons.mp member with rfl | later
        · exact absurd reachedOther known
        · exact ways closed other later reachedOther

/-! ## Pending joins -/

/-- The joins of a block. -/
def phisOf (done : Progress) (k : Nat) : List StmtId := ((followed? done k).map Followed.phis).getD []

structure JoinAt (plan : Plan) (entry : Entry) (done : Progress) (m : Ir.Method) (k r : Nat)
    (p : PendingPhi) : Prop where
  inside : k < plan.blocks.size
  listed : (phisOf done k)[r]? = some p.stmt
  target : (m.action p.stmt).defines? = some p.target
  args : p.args = (phiOperands plan entry done r (plan.block k).preds).1

def pendingAt (plan : Plan) (entry : Entry) (done : Progress) (m : Ir.Method) (k : Nat) :
    List (PendingPhi × Bool) :=
  (phisOf done k).zipIdx.filterMap fun s =>
    (m.action s.1).defines?.map fun target =>
      ({ stmt := s.1, target, args := (phiOperands plan entry done s.2 (plan.block k).preds).1 },
        (phiOperands plan entry done s.2 (plan.block k).preds).2)

theorem pendingPhis_eq (plan : Plan) (entry : Entry) (done : Progress) (m : Ir.Method) :
    pendingPhis plan entry done m =
      (List.range plan.blocks.size).flatMap (pendingAt plan entry done m) := by
  unfold pendingPhis
  congr 1
  funext k
  unfold pendingAt phisOf followed?
  cases done[k]?.join <;> rfl

theorem mem_pendingPhis {plan : Plan} {entry : Entry} :
    (p, isOpen) ∈ pendingPhis plan entry done m ↔
      ∃ k r, JoinAt plan entry done m k r p ∧
        isOpen = (phiOperands plan entry done r (plan.block k).preds).2 := by
  rw [pendingPhis_eq, mem_flatMap]
  constructor
  · rintro ⟨k, inside, member⟩
    obtain ⟨⟨stmt, r⟩, listed, found⟩ := mem_filterMap.mp member
    obtain ⟨target, defined, equal⟩ := Option.map_eq_some_iff.mp found
    cases equal
    exact ⟨k, r, ⟨mem_range.mp inside, mem_zipIdx_iff_getElem?.mp listed, defined, rfl⟩, rfl⟩
  · rintro ⟨k, r, ⟨inside, listed, defined, args⟩, rfl⟩
    refine ⟨k, mem_range.mpr inside, ?_⟩
    refine mem_filterMap.mpr ⟨(p.stmt, r), mem_zipIdx_iff_getElem?.mpr listed, ?_⟩
    dsimp only
    rw [defined, Option.map_some, ← args]

theorem sublist_filterMap {α β γ : Type} (pick : α → Option β) (first : α → γ) (second : β → γ)
    (same : ∀ a b, pick a = some b → second b = first a) (xs : List α) :
    ((xs.filterMap pick).map second).Sublist (xs.map first) := by
  induction xs with
  | nil => exact List.Sublist.refl _
  | cons a rest ih =>
    cases picked : pick a with
    | none =>
      rw [filterMap_cons_none picked, map_cons]
      exact ih.cons _
    | some b =>
      rw [filterMap_cons_some picked, map_cons, map_cons, same a b picked]
      exact ih.cons_cons _

theorem sublist_pendingAt (plan : Plan) (entry : Entry) (done : Progress) (m : Ir.Method)
    (ks : List Nat) :
    ((ks.flatMap (pendingAt plan entry done m)).map fun p => p.1.stmt).Sublist
      (ks.flatMap (phisOf done)) := by
  induction ks with
  | nil => exact List.Sublist.refl _
  | cons k rest ih =>
    rw [flatMap_cons, flatMap_cons, map_append]
    refine List.Sublist.append ?_ ih
    have ordered := sublist_filterMap (fun s : StmtId × Nat =>
        (m.action s.1).defines?.map fun target =>
          (({ stmt := s.1, target
              args := (phiOperands plan entry done s.2 (plan.block k).preds).1 } : PendingPhi),
            (phiOperands plan entry done s.2 (plan.block k).preds).2))
      Prod.fst (fun p => p.1.stmt) ?_ (phisOf done k).zipIdx
    · rwa [zipIdx_map_fst] at ordered
    · intro s p picked
      obtain ⟨target, -, equal⟩ := Option.map_eq_some_iff.mp picked
      rw [← equal]

section Pending

variable {file : Dex.File} {plan : Plan} {entry : Entry} {count : Nat} {start m : Ir.Method}
  {ks : List Nat} {done : Progress} {trapped : List Trapped} {front back : Nat → List StmtId}
  {linked : Ir.Method}

theorem mem_idsOf_of_phi {k : Nat} {id : StmtId} (member : id ∈ phisOf done k) :
    id ∈ idsOf done k := by
  unfold phisOf at member
  unfold idsOf
  cases followed : followed? done k with
  | none => simp [followed] at member
  | some f =>
    rw [followed] at member
    exact mem_append_left _ member

section

variable (progressed : Progressed file plan entry count start ks m done)

include progressed

theorem nodup_phis : ((List.range plan.blocks.size).flatMap (phisOf done)).Nodup := by
  have nodup : (ks.flatMap (idsOf done)).Nodup := by
    rw [progressed.makes.range]
    exact nodup_range'
  have reached : ∀ {k id}, id ∈ phisOf done k → k ∈ ks := by
    intro k id member
    rw [← progressed.reached k]
    cases followed : followed? done k with
    | none => simp [phisOf, followed] at member
    | some f => rfl
  refine nodup_flatMap.mpr ⟨?_, ?_⟩
  · intro k _
    cases followed : followed? done k with
    | none => simp [phisOf, followed]
    | some f =>
      have listed : k ∈ ks := by
        rw [← progressed.reached k, followed]
        rfl
      have whole := (nodup_flatMap.mp nodup).1 k listed
      rw [idsOf, followed] at whole
      rw [phisOf, followed]
      exact whole.of_append_left
  · refine nodup_range.pairwise_of_forall_ne ?_
    intro j _ k _ different id first second
    exact disjoint_of_nodup nodup (reached first) (reached second) different
      (mem_idsOf_of_phi first) (mem_idsOf_of_phi second)

theorem nodup_targets (defines : DefinesOnce linked) :
    ((pendingPhis plan entry done linked).map fun p => p.1.target).Nodup := by
  have stmts : ((pendingPhis plan entry done linked).map fun p => p.1.stmt).Nodup := by
    rw [pendingPhis_eq]
    exact (sublist_pendingAt plan entry done linked _).nodup (nodup_phis progressed)
  refine stmts.of_map.map_on ?_
  intro p first q second same
  have found : ∀ p ∈ pendingPhis plan entry done linked,
      (linked.action p.1.stmt).defines? = some p.1.target := by
    rintro ⟨p, isOpen⟩ member
    obtain ⟨k, r, join, -⟩ := mem_pendingPhis.mp member
    exact join.target
  refine inj_on_of_nodup_map stmts first second ?_
  exact defines.once _ _ _ (found p first) (same ▸ found q second)

theorem eq_of_target (defines : DefinesOnce linked) {p q : PendingPhi × Bool}
    (first : p ∈ pendingPhis plan entry done linked)
    (second : q ∈ pendingPhis plan entry done linked) (same : p.1.target = q.1.target) : p = q :=
  inj_on_of_nodup_map (nodup_targets progressed defines) first second same

end

theorem JoinAt.built {k r : Nat} (join : JoinAt plan entry done linked k r p)
    (progressed : Progressed file plan entry count start ks m done)
    (same : ∀ id < m.stmts.size, linked.action id = m.action id) :
    ∃ f low into, followed? done k = some f ∧ Built file plan entry count m done k f low into ∧
      (plan.block k).isJoin = true ∧ r < count ∧ p.target = low + r ∧
      linked.action p.stmt = .phi (low + r) [] := by
  have listed := join.listed
  cases followed : followed? done k with
  | none => simp [phisOf, followed] at listed
  | some f =>
    rw [phisOf, followed] at listed
    simp only [Option.map_some, Option.getD_some] at listed
    obtain ⟨low, into, built⟩ := progressed.built k f followed
    have made := built.made p.stmt (mem_append_left _ (mem_of_getElem? listed))
    cases isJoin : (plan.block k).isJoin with
    | false =>
      rw [(built.single isJoin).1] at listed
      cases listed
    | true =>
      have actions := congrArg (fun xs : List Action => xs[r]?) (built.joins isJoin).2
      simp only [getElem?_map, listed, Option.map_some] at actions
      obtain ⟨l, found, action⟩ := Option.map_eq_some_iff.mp actions.symm
      obtain ⟨inside, here⟩ := List.getElem?_eq_some_iff.mp found
      have here : l = low + r := by rw [← here]; simp
      rw [length_range'] at inside
      have does : linked.action p.stmt = .phi (low + r) [] := by
        rw [same p.stmt made, ← action, here]
      refine ⟨f, low, into, rfl, built, rfl, inside, ?_, does⟩
      have target := join.target
      rw [does] at target
      exact (Option.some.inj target).symm

theorem JoinAt.smaller {k r : Nat} (join : JoinAt plan entry done linked k r p)
    (closed : (phiOperands plan entry done r (plan.block k).preds).2 = false) {f : Followed}
    {low : Nat} {into : Registers} (built : Built file plan entry count m done k f low into) :
    ∃ a ∈ p.args, (a.value : Nat) < low := by
  obtain ⟨e, member, known, below⟩ := built.earlier
  obtain ⟨value, held, listed⟩ :=
    (phiOperands_spec plan entry done r (plan.block k).preds).2 closed e member known
  exact ⟨_, join.args ▸ listed, below r value held⟩

end Pending

/-! ## Filling -/

def giveOperands (phis : List (PendingPhi × Bool)) (m : Ir.Method) : Ir.Method :=
  phis.foldl (fun m p => m.setAction p.1.stmt (.phi p.1.target p.1.args)) m

theorem giveOperands_spec (phis : List (PendingPhi × Bool)) (tidy : m.Tidy)
    (nodup : (phis.map fun p => p.1.stmt).Nodup) (made : ∀ p ∈ phis, p.1.stmt < m.stmts.size)
    (joins : ∀ p ∈ phis, (m.action p.1.stmt).label? = none) :
    (giveOperands phis m).Tidy ∧ (∃ stmts, stmts.size = m.stmts.size ∧
      giveOperands phis m = { m with stmts }) ∧
    (∀ p ∈ phis, (giveOperands phis m).action p.1.stmt = .phi p.1.target p.1.args) ∧
    ∀ id, (∀ p ∈ phis, p.1.stmt ≠ id) → (giveOperands phis m).action id = m.action id := by
  induction phis generalizing m with
  | nil => exact ⟨tidy, ⟨_, rfl, rfl⟩, by simp, fun _ _ => rfl⟩
  | cons first rest ih =>
    obtain ⟨absent, restNodup⟩ := nodup_cons.mp nodup
    have other : ∀ p ∈ rest, p.1.stmt ≠ first.1.stmt :=
      fun p member same => absent (mem_map.mpr ⟨p, member, same⟩)
    obtain ⟨restTidy, ⟨stmts, size, equal⟩, changed, kept⟩ := ih
      (tidy.setAction (joins first (by simp)) (rfl : (Action.phi first.1.target first.1.args).label? = none))
      restNodup
      (fun p member => by simpa using made p (.tail _ member))
      (fun p member => by
        rw [Ir.Method.action_setAction, if_neg fun here => other p member here.1]
        exact joins p (.tail _ member))
    refine ⟨restTidy, ⟨stmts, by simpa using size, ?_⟩, ?_, ?_⟩
    · exact equal
    · intro p member
      rcases mem_cons.mp member with rfl | later
      · refine (kept p.1.stmt other).trans ?_
        rw [Ir.Method.action_setAction, if_pos ⟨rfl, made p (by simp)⟩]
      · exact changed p later
    · intro id different
      refine (kept id fun p member => different p (.tail _ member)).trans ?_
      rw [Ir.Method.action_setAction, if_neg fun here => different first (by simp) here.1.symm]

theorem getD_flags (phis : List PendingPhi) (flags : Array Bool)
    (inside : ∀ p ∈ phis, p.stmt < flags.size) (id : StmtId) :
    (phis.foldl (fun (flags : Array Bool) p => flags.setIfInBounds p.stmt true) flags).getD id false =
      true ↔ flags.getD id false = true ∨ ∃ p ∈ phis, p.stmt = id := by
  induction phis generalizing flags with
  | nil => simp
  | cons first rest ih =>
    rw [foldl_cons, ih _ fun p member => by
      simpa using inside p (.tail _ member)]
    have here : (flags.setIfInBounds first.stmt true).getD id false = true ↔
        flags.getD id false = true ∨ first.stmt = id := by
      rw [getD_set]
      have made := inside first mem_cons_self
      grind
    rw [here, or_assoc]
    simp

/-- What becomes of a join: it is dropped, it stays, or it is replaced. -/
inductive Decided (plan : Plan) (entry : Entry) (done : Progress) (after : Ir.Method)
    (subst : Substitution) (dropped : LocalSet) (keeps : StmtId → Bool) (k r : Nat)
    (p : PendingPhi) : Prop where
  | dropped (gone : dropped.mem p.target = true) (out : keeps p.stmt = false)
  | kept (whole : dropped.mem p.target = false)
      (closed : (phiOperands plan entry done r (plan.block k).preds).2 = false)
      (reads : ∀ a ∈ p.args, dropped.mem a.value = false) (stays : keeps p.stmt = true)
      (fixed : subst.resolve p.target = p.target)
      (action : after.action p.stmt = (Action.phi p.target p.args).substitute subst)
  | replaced (whole : dropped.mem p.target = false)
      (closed : (phiOperands plan entry done r (plan.block k).preds).2 = false)
      (reads : ∀ a ∈ p.args, dropped.mem a.value = false) (out : keeps p.stmt = false)
      (operands : ∀ a ∈ p.args, subst.resolve a.value = subst.resolve p.target)

structure Filled (plan : Plan) (entry : Entry) (done : Progress) (linked after : Ir.Method)
    (subst : Substitution) (dropped : LocalSet) (keeps : StmtId → Bool) : Prop where
  order : after.order.toList = linked.order.toList.filter keeps
  tidy : after.Tidy
  traps : after.traps = linked.traps
  locals : after.locals = linked.locals
  others : ∀ id, (linked.action id).isPhi = false → keeps id = true
  plain : ∀ id ∈ after.order.toList, (linked.action id).isPhi = false →
    after.action id = (linked.action id).substitute subst
  defines : ∀ id, (after.action id).defines? = (linked.action id).defines?
  unread : ∀ id ∈ after.order.toList, ∀ l ∈ (after.action id).uses, dropped.mem l = false
  le : ∀ l : Nat, subst.resolve l ≤ l
  last : ∀ l, subst.resolve (subst.resolve l) = subst.resolve l
  fixed : ∀ l, (∀ id, (linked.action id).defines? = some l → (linked.action id).isPhi = false) →
    subst.resolve l = l ∧ dropped.mem l = false
  gone : ∀ l, dropped.mem l = true → subst.resolve l = l
  whole : ∀ l, dropped.mem l = false → dropped.mem (subst.resolve l) = false
  joins : ∀ k r p, JoinAt plan entry done linked k r p → p.stmt ∈ linked.order.toList →
    Decided plan entry done after subst dropped keeps k r p

@[simp] theorem label?_substitute (subst : Substitution) (a : Action) :
    (a.substitute subst).label? = a.label? := by
  cases a <;> rfl

@[simp] theorem defines?_substitute (subst : Substitution) (a : Action) :
    (a.substitute subst).defines? = a.defines? := by
  cases a <;> rfl

section Filling

variable {file : Dex.File} {plan : Plan} {entry : Entry} {count : Nat} {start m : Ir.Method}
  {ks : List Nat} {done : Progress} {linked : Ir.Method}

/-- The joins that read something on every way in. -/
def wholePhis (pending : List (PendingPhi × Bool)) : List PendingPhi :=
  (pending.filter fun p => !p.2).map Prod.fst

theorem mem_wholePhis : p ∈ wholePhis pending ↔ (p, false) ∈ pending := by
  simp [wholePhis]

theorem grounded_of_pending (progressed : Progressed file plan entry count start ks m done)
    (defines : DefinesOnce linked) (same : ∀ id < m.stmts.size, linked.action id = m.action id)
    {phis : List PendingPhi} (sub : phis.Sublist (wholePhis (pendingPhis plan entry done linked))) :
    Grounded phis linked.locals.size := by
  have whole : ∀ p ∈ phis, (p, false) ∈ pendingPhis plan entry done linked :=
    fun p member => mem_wholePhis.mp (sub.subset member)
  refine ⟨?_, ?_, ?_⟩
  · have targets := nodup_targets progressed defines
    have filtered := ((filter_sublist (p := fun p : PendingPhi × Bool => !p.2)
      (l := pendingPhis plan entry done linked)).map fun p => p.1.target).nodup targets
    refine (sub.map PendingPhi.target).nodup ?_
    rwa [wholePhis, map_map]
  · intro p member
    obtain ⟨k, r, join, -⟩ := mem_pendingPhis.mp (whole p member)
    exact defines.known _ _ join.target
  · intro p member
    obtain ⟨k, r, join, closed⟩ := mem_pendingPhis.mp (whole p member)
    obtain ⟨f, low, into, -, built, -, -, target, -⟩ := join.built progressed same
    obtain ⟨a, listed, below⟩ := join.smaller closed.symm built
    exact ⟨a, listed, lt_of_lt_of_le below (target ▸ Nat.le_add_right _ _)⟩

/-- What the joins that stay after dropping and replacing amount to. -/
structure Settled (pending : List (PendingPhi × Bool)) (dropped : LocalSet)
    (whole kept : List PendingPhi) (subst : Substitution) : Prop where
  dropping : Dropped (.ofList ((pending.filter Prod.snd).map fun p => p.1.target))
    (wholePhis pending) dropped whole
  replacing : Resolved whole kept subst.resolve
  unique : ∀ p ∈ pending, ∀ q ∈ pending, p.1.target = q.1.target → p = q

section

variable (settled : Settled pending dropped whole kept subst)

include settled

theorem Settled.not_dropped (member : p ∈ whole) : dropped.mem p.target = false := by
  have here := mem_wholePhis.mp (settled.dropping.sub.subset member)
  rw [Bool.eq_false_iff]
  intro gone
  rcases settled.dropping.new p.target gone with opened | ⟨q, listed, absent, same⟩
  · obtain ⟨q, listed, same⟩ := mem_map.mp (LocalSet.mem_ofList _ _ |>.mp opened)
    obtain ⟨pending, isOpen⟩ := mem_filter.mp listed
    have equal := settled.unique q pending (p, false) here same
    rw [equal] at isOpen
    cases isOpen
  · have equal := settled.unique (q, false) (mem_wholePhis.mp listed) (p, false) here same
    cases equal
    exact absent member

theorem Settled.whole_resolve {size : Nat} (grounded : Grounded whole size) (l : Nat)
    (here : dropped.mem l = false) : dropped.mem (subst.resolve l) = false := by
  induction l using Nat.strongRecOn with
  | ind l ih =>
    by_cases replaced : ∃ p ∈ whole, p ∉ kept ∧ p.target = l
    · obtain ⟨p, member, absent, rfl⟩ := replaced
      obtain ⟨a, listed, smaller⟩ := grounded.smaller p member
      rw [← settled.replacing.operands p member absent a listed]
      exact ih a.value smaller (settled.dropping.reads p member a listed)
    · rwa [settled.replacing.fixed l fun p member absent same => replaced ⟨p, member, absent, same⟩]

theorem Settled.cases (member : (p, isOpen) ∈ pending) :
    (dropped.mem p.target = true ∧ p ∉ kept) ∨
    (dropped.mem p.target = false ∧ isOpen = false ∧
      (∀ a ∈ p.args, dropped.mem a.value = false) ∧
      ((p ∈ kept ∧ subst.resolve p.target = p.target) ∨
        (p ∉ kept ∧ ∀ a ∈ p.args, subst.resolve a.value = subst.resolve p.target))) := by
  have keptWhole : ∀ q ∈ kept, q ∈ whole := fun q inside => settled.replacing.sub.subset inside
  by_cases stays : p ∈ whole
  · have here := mem_wholePhis.mp (settled.dropping.sub.subset stays)
    have closed := settled.unique (p, isOpen) member (p, false) here rfl
    refine .inr ⟨settled.not_dropped stays, (Prod.mk.inj closed).2,
      settled.dropping.reads p stays, ?_⟩
    by_cases inside : p ∈ kept
    · refine .inl ⟨inside, settled.replacing.fixed p.target ?_⟩
      intro q listed absent same
      have equal := settled.unique (q, false)
        (mem_wholePhis.mp (settled.dropping.sub.subset listed)) (p, false) here same
      cases equal
      exact absent inside
    · exact .inr ⟨inside, settled.replacing.operands p stays inside⟩
  · refine .inl ⟨?_, fun inside => stays (keptWhole p inside)⟩
    cases isOpen with
    | true =>
      refine settled.dropping.old p.target ((LocalSet.mem_ofList _ _).mpr ?_)
      exact mem_map.mpr ⟨(p, true), mem_filter.mpr ⟨member, rfl⟩, rfl⟩
    | false =>
      rcases settled.dropping.gone p (mem_wholePhis.mpr member) with inside | gone
      · exact absurd inside stays
      · exact gone

end

theorem settled_of_pending (progressed : Progressed file plan entry count start ks m done)
    (defines : DefinesOnce linked) (same : ∀ id < m.stmts.size, linked.action id = m.action id) :
    let pending := pendingPhis plan entry done linked
    let dropping := dropOpen ((wholePhis pending).length + 1)
      (.ofList ((pending.filter Prod.snd).map fun p => p.1.target)) (wholePhis pending)
    let folding := foldAll (dropping.2.length + 1) (.identity linked.locals.size) dropping.2
    Settled pending dropping.1 dropping.2 folding.2 folding.1 ∧
      Grounded dropping.2 linked.locals.size := by
  intro pending dropping folding
  have dropped : Dropped _ _ dropping.1 dropping.2 := dropOpen_spec _ _ _ (Nat.lt_succ_self _)
  have grounded := grounded_of_pending progressed defines same dropped.sub
  exact ⟨⟨dropped, resolved_foldAll grounded,
    fun p first q second => eq_of_target progressed defines first second⟩, grounded⟩

/-- The statements that leave when some joins are kept. -/
def leaving (filled : Ir.Method) (kept : List PendingPhi) (id : StmtId) : Bool :=
  (filled.action id).isPhi &&
    !(kept.foldl (fun (flags : Array Bool) p => flags.setIfInBounds p.stmt true)
      (Array.replicate filled.stmts.size false)).getD id false

/-- The method without the joins that leave, every read resolved. -/
def settle (filled : Ir.Method) (kept : List PendingPhi) (subst : Substitution) : Ir.Method :=
  (filled.removeWhere (leaving filled kept)).mapActions (Action.substitute subst)

theorem fillPhis_eq (plan : Plan) (entry : Entry) (done : Progress) (linked : Ir.Method) :
    fillPhis plan entry done linked =
      (let pending := pendingPhis plan entry done linked
      let filled := giveOperands pending linked
      let dropping := dropOpen ((wholePhis pending).length + 1)
        (.ofList ((pending.filter Prod.snd).map fun p => p.1.target)) (wholePhis pending)
      let folding := foldAll (dropping.2.length + 1) (.identity filled.locals.size) dropping.2
      let result := settle filled folding.2 folding.1
      if result.actions.any fun action => action.uses.any dropping.1.mem then
        Outcome.fail .undefinedRegister >>= fun _ : Unit => pure result
      else pure result) := by
  unfold fillPhis
  dsimp only
  rw [partition_eq_filter_filter]
  rfl

theorem leaving_eq_false_iff (size : filled.stmts.size = linked.stmts.size)
    (joins : ∀ p ∈ pending,
      p.1.stmt < linked.stmts.size ∧ linked.action p.1.stmt = .phi p.1.target [])
    (given : ∀ p ∈ pending, filled.action p.1.stmt = .phi p.1.target p.1.args)
    (unique : ∀ p ∈ pending, ∀ q ∈ pending, p.1.target = q.1.target → p = q)
    (listed : ∀ q ∈ kept, (q, false) ∈ pending) (member : (p, isOpen) ∈ pending) :
    leaving filled kept p.stmt = false ↔ p ∈ kept := by
  have flags := getD_flags kept (Array.replicate filled.stmts.size false) (fun q inside => by
      rw [Array.size_replicate, size]
      exact (joins _ (listed q inside)).1) p.stmt
  have nothing : (Array.replicate filled.stmts.size false).getD p.stmt false = false := by
    by_cases inside : p.stmt < filled.stmts.size
    · simp [inside]
    · simp [inside]
  rw [leaving, given _ member]
  simp only [Action.isPhi, Bool.true_and, Bool.not_eq_false']
  refine flags.trans ⟨?_, fun inside => .inr ⟨p, inside, rfl⟩⟩
  rintro (never | ⟨q, inside, sameStmt⟩)
  · rw [nothing] at never
    cases never
  · have action := (joins _ (listed q inside)).2
    rw [sameStmt, (joins _ member).2] at action
    injection action with sameTarget
    have found := unique _ member _ (listed q inside) sameTarget
    cases found
    exact inside

theorem settle_spec (tidy : filled.Tidy) (kept : List PendingPhi) (subst : Substitution) :
    (settle filled kept subst).Tidy ∧
      (settle filled kept subst).order.toList =
        filled.order.toList.filter (fun id => !leaving filled kept id) ∧
      (settle filled kept subst).traps = filled.traps ∧
      (settle filled kept subst).locals = filled.locals ∧
      (∀ id ∈ (settle filled kept subst).order.toList,
        (settle filled kept subst).action id = (filled.action id).substitute subst) ∧
      ∀ id, ((settle filled kept subst).action id).defines? = (filled.action id).defines? := by
  have removed := tidy.removeWhere (leaving filled kept)
  obtain ⟨placed, -, equal, -⟩ := Ir.Method.removeWhere_with tidy (leaving filled kept)
  obtain ⟨stmts, -, mapped, actions⟩ :=
    Ir.Method.mapActions_with removed (Action.substitute subst)
  have order : (settle filled kept subst).order = (filled.removeWhere (leaving filled kept)).order := by
    rw [settle, mapped]
  refine ⟨removed.mapActions (label?_substitute subst), ?_, ?_, ?_, ?_, ?_⟩
  · rw [order, equal, Array.toList_filter]
  · rw [settle, mapped, equal]
  · rw [settle, mapped, equal]
  · intro id member
    rw [order] at member
    refine (actions id).trans ?_
    rw [if_pos member, equal]
    rfl
  · intro id
    rw [settle, actions id]
    split
    · rw [defines?_substitute, equal]
      rfl
    · rw [equal]
      rfl

theorem fillPhis_spec (progressed : Progressed file plan entry count start ks m done)
    (tidy : linked.Tidy) (defines : DefinesOnce linked) (made : m.stmts.size ≤ linked.stmts.size)
    (same : ∀ id < m.stmts.size, linked.action id = m.action id) {after : Ir.Method}
    (done_ : fillPhis plan entry done linked = .ok after) :
    ∃ subst dropped keeps, Filled plan entry done linked after subst dropped keeps := by
  obtain ⟨settled, grounded⟩ := settled_of_pending progressed defines same
  -- Pending joins are joins of the linked method.
  have joins : ∀ p ∈ pendingPhis plan entry done linked,
      p.1.stmt < m.stmts.size ∧ linked.action p.1.stmt = .phi p.1.target [] := by
    rintro ⟨p, isOpen⟩ member
    obtain ⟨k, r, join, -⟩ := mem_pendingPhis.mp member
    obtain ⟨f, low, into, followed, built, -, -, target, action⟩ := join.built progressed same
    refine ⟨built.made p.stmt (mem_append_left _ ?_), by rw [action, target]⟩
    have listed := mem_of_getElem? join.listed
    rwa [phisOf, followed] at listed
  have stmts : ((pendingPhis plan entry done linked).map fun p => p.1.stmt).Nodup := by
    rw [pendingPhis_eq]
    exact (sublist_pendingAt plan entry done linked _).nodup (nodup_phis progressed)
  obtain ⟨filledTidy, ⟨filledStmts, size, equal⟩, given, untouched⟩ :=
    giveOperands_spec (pendingPhis plan entry done linked) tidy stmts
      (fun p member => lt_of_lt_of_le (joins p member).1 made)
      (fun p member => by rw [(joins p member).2]; rfl)
  rw [fillPhis_eq] at done_
  dsimp only at done_
  rw [show (giveOperands (pendingPhis plan entry done linked) linked).locals = linked.locals by
    rw [equal]] at done_
  generalize dropOpen _ _ _ = dropping at settled grounded done_
  generalize foldAll _ _ _ = folding at settled done_
  split at done_
  · cases done_
  next unread =>
    cases done_
    obtain ⟨afterTidy, order, traps, locals, actions, definitions⟩ :=
      settle_spec filledTidy folding.2 folding.1
    generalize settle _ folding.2 folding.1 = after at *
    have listed : ∀ q ∈ folding.2, (q, false) ∈ pendingPhis plan entry done linked :=
      fun q member => mem_wholePhis.mp
        (settled.dropping.sub.subset (settled.replacing.sub.subset member))
    have leaves : ∀ p isOpen, (p, isOpen) ∈ pendingPhis plan entry done linked →
        (leaving (giveOperands (pendingPhis plan entry done linked) linked) folding.2 p.stmt =
          false ↔ p ∈ folding.2) :=
      fun p isOpen member => leaving_eq_false_iff (by rwa [equal])
        (fun q inside => ⟨lt_of_lt_of_le (joins q inside).1 made, (joins q inside).2⟩) given
        settled.unique listed member
    have stays : ∀ id, (linked.action id).isPhi = false →
        (giveOperands (pendingPhis plan entry done linked) linked).action id = linked.action id := by
      intro id other
      refine untouched id fun p member sameStmt => ?_
      rw [← sameStmt, (joins p member).2] at other
      cases other
    refine ⟨folding.1, dropping.1,
      fun id => !leaving (giveOperands (pendingPhis plan entry done linked) linked) folding.2 id,
      ?_, afterTidy, ?_, ?_, ?_, ?_, ?_, ?_, settled.replacing.le, settled.replacing.last, ?_, ?_,
      settled.whole_resolve grounded, ?_⟩
    · rw [order, equal]
    · rw [traps, equal]
    · rw [locals, equal]
    · intro id other
      rw [leaving, stays id other, other]
      rfl
    · intro id member other
      rw [actions id member, stays id other]
    · intro id
      rw [definitions id]
      by_cases pending : ∃ p ∈ pendingPhis plan entry done linked, p.1.stmt = id
      · obtain ⟨p, member, rfl⟩ := pending
        rw [given p member, (joins p member).2]
        rfl
      · rw [untouched id fun p member sameStmt => pending ⟨p, member, sameStmt⟩]
    · intro id member l read
      rw [Bool.eq_false_iff]
      intro gone
      refine unread (any_eq_true.mpr ⟨after.action id, mem_map_of_mem member, ?_⟩)
      exact any_eq_true.mpr ⟨l, read, gone⟩
    · intro l other
      have absent : ∀ p ∈ pendingPhis plan entry done linked, p.1.target ≠ l := by
        intro p member sameTarget
        have isPhi := other p.1.stmt (by rw [(joins p member).2, ← sameTarget]; rfl)
        rw [(joins p member).2] at isPhi
        cases isPhi
      refine ⟨settled.replacing.fixed l fun p member _ => ?_, ?_⟩
      · exact absent (p, false) (mem_wholePhis.mp (settled.dropping.sub.subset member))
      · rw [Bool.eq_false_iff]
        intro gone
        rcases settled.dropping.new l gone with opened | ⟨q, inside, -, sameTarget⟩
        · obtain ⟨q, inside, sameTarget⟩ :=
            mem_map.mp ((LocalSet.mem_ofList _ _).mp opened)
          exact absent q (mem_of_mem_filter inside) sameTarget
        · exact absent (q, false) (mem_wholePhis.mp inside) sameTarget
    · intro l gone
      refine settled.replacing.fixed l fun p member _ sameTarget => ?_
      rw [← sameTarget, settled.not_dropped member] at gone
      cases gone
    · intro k r p join inBody
      have member : (p, (phiOperands plan entry done r (plan.block k).preds).2) ∈
          pendingPhis plan entry done linked := mem_pendingPhis.mpr ⟨k, r, join, rfl⟩
      have leavesHere := leaves p _ member
      rcases settled.cases member with
        ⟨gone, absent⟩ | ⟨whole, closed, reads, ⟨inside, fixed⟩ | ⟨absent, operands⟩⟩
      · refine .dropped gone ?_
        rw [Bool.not_eq_false', ← Bool.not_eq_false]
        exact fun stay => absent (leavesHere.mp stay)
      · have stay := leavesHere.mpr inside
        refine .kept whole closed reads (by rw [stay]; rfl) fixed ?_
        rw [actions p.stmt, given _ member]
        rw [order, mem_filter, stay]
        refine ⟨?_, rfl⟩
        rwa [equal]
      · refine .replaced whole closed reads ?_ operands
        rw [Bool.not_eq_false', ← Bool.not_eq_false]
        exact fun stay => absent (leavesHere.mp stay)

end Filling

end DexLift.Lower
