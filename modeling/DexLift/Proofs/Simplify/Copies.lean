import DexLift.Proofs.Ir.Mirrors
import DexLift.Proofs.Ir.Rewriting
import DexLift.Proofs.Lower.Joins
import DexLift.Simplify.Copies

/-!
# Replacing copies keeps what a method does

One pass over the body builds a table of what stands for what, and looks locals up
in the table while it does. Every entry is a local that mirrors another one in the
method as it was, so it does not matter in which order entries were made. A local
gets its entry while it stands for itself and so does what will stand for it;
later entries are therefore nearer to the end of every chain, and following a
chain comes to a local that stays. Rounds are repeated until one finds nothing;
each before took a statement out.
-/

namespace DexLift.Ir

open List Substitution

namespace Substitution

/-! ## Tables without cycles -/

/-- How many locals are replaced. -/
def entries (subst : Substitution) : Nat := subst.toList.countP Option.isSome

/-- Every local has a layer, and what stands for a local is in a later one. Those that stand for
themselves are in the last layer. -/
def Layered (subst : Substitution) : Prop :=
  ∃ layer : LocalId → Nat, (∀ x next, subst.getD x none = some next → layer x < layer next) ∧
    ∀ x, layer x ≤ subst.entries ∧ (subst.getD x none = none → layer x = subst.entries)

variable {subst : Substitution}

@[simp] theorem getD_identity (count : Nat) (x : LocalId) :
    (identity count).getD x none = none := by
  exact getD_replicate ..

theorem isIdentity_iff : subst.isIdentity = true ↔ ∀ x : LocalId, subst.getD x none = none := by
  rw [isIdentity, Array.all_eq_true]
  constructor
  · intro all x
    rw [Array.getD_eq_getD_getElem?]
    cases found : subst[x]? with
    | none => rfl
    | some entry =>
      obtain ⟨inside, same⟩ := Array.getElem?_eq_some_iff.mp found
      simpa [same] using all x inside
  · intro none i inside
    have entry := none i
    rw [Array.getD_eq_getD_getElem?, Array.getElem?_eq_getElem inside] at entry
    rw [show subst[i] = Option.none from entry]
    rfl

theorem Layered.identity (count : Nat) : (identity count).Layered := by
  refine ⟨fun _ => 0, fun x next found => ?_, fun x => ?_⟩
  · rw [getD_identity] at found
    cases found
  · have none : (Substitution.identity count).entries = 0 := by
      simp [entries, Substitution.identity, countP_replicate]
    exact ⟨Nat.zero_le _, fun _ => none.symm⟩

theorem entries_insert {x : LocalId} (inside : x < subst.size) (free : subst.getD x none = none)
    (value : LocalId) : (subst.insert x value).entries = subst.entries + 1 := by
  have listed : x < subst.toList.length := by simpa using inside
  have here : subst.toList[x] = none := by
    rw [Array.getD_eq_getD_getElem?, Array.getElem?_eq_getElem inside] at free
    simpa using free
  have room := countP_set (p := Option.isSome) (l := subst.toList) (i := x) (a := some value) listed
  rw [here] at room
  rw [entries, insert, Array.toList_setIfInBounds, room]
  simp [entries]

theorem Layered.insert (layered : subst.Layered) {x value : LocalId} (inside : x < subst.size)
    (free : subst.getD x none = none) (freeValue : subst.getD value none = none)
    (different : value ≠ x) : (subst.insert x value).Layered := by
  obtain ⟨layer, rising, layers⟩ := layered
  have last := (layers x).2 free
  refine ⟨fun y => if y = x then subst.entries else if layer y = subst.entries then
    subst.entries + 1 else layer y, fun y next found => ?_, fun y => ?_⟩
  · rw [getD_insert inside] at found
    split at found
    next same =>
      cases found
      simp [same, different, (layers value).2 freeValue]
    next other =>
      have less := rising y next found
      have bound := (layers next).1
      have early : layer y ≠ subst.entries := by omega
      simp only [if_neg other, if_neg early]
      split
      · omega
      · split <;> omega
  · rw [entries_insert inside free]
    have bound := (layers y).1
    refine ⟨?_, fun none => ?_⟩
    · dsimp only
      split
      · omega
      · split <;> omega
    rw [getD_insert inside] at none
    split at none
    · cases none
    next other => simp [other, (layers y).2 none]

theorem Layered.getD_resolve (layered : subst.Layered) (x : LocalId) :
    subst.getD (subst.resolve x) none = none := by
  obtain ⟨layer, rising, layers⟩ := layered
  have follow : ∀ fuel x, subst.entries ≤ fuel + layer x →
      subst.getD (subst.find fuel x) none = none := by
    intro fuel
    induction fuel with
    | zero =>
      intro x enough
      rw [find]
      cases found : subst.getD x none with
      | none => rfl
      | some next =>
        have less := rising x next found
        have bound := (layers next).1
        omega
    | succ fuel ih =>
      intro x enough
      rw [find]
      cases found : subst.getD x none with
      | none => exact found
      | some next =>
        have less := rising x next found
        exact ih next (by omega)
  refine follow subst.size x ?_
  exact (countP_le_length ..).trans (by simp)

end Substitution

/-! ## One value -/

theorem soleValue_eq_some {subst : Substitution} {target v : LocalId} {args : List PhiArg} :
    soleValue subst target args = some v ↔ v ≠ target ∧
      (∃ arg ∈ args, subst.resolve arg.value = v) ∧
      ∀ arg ∈ args, subst.resolve arg.value = v ∨ subst.resolve arg.value = target := by
  have member : ∀ x, x ∈ ((args.map fun a => subst.resolve a.value).filter (· != target)) ↔
      (∃ arg ∈ args, subst.resolve arg.value = x) ∧ x ≠ target := by
    intro x
    simp
  have all : (∀ arg ∈ args, subst.resolve arg.value = v ∨ subst.resolve arg.value = target) ↔
      ∀ x ∈ ((args.map fun a => subst.resolve a.value).filter (· != target)), x = v := by
    constructor
    · intro each x listed
      obtain ⟨⟨arg, inside, rfl⟩, other⟩ := (member x).mp listed
      exact (each arg inside).resolve_right other
    · intro each arg inside
      by_cases own : subst.resolve arg.value = target
      · exact .inr own
      · exact .inl (each _ ((member _).mpr ⟨⟨arg, inside, rfl⟩, own⟩))
  rw [all, and_left_comm, ← and_assoc, ← member, soleValue]
  generalize (args.map fun a => subst.resolve a.value).filter (· != target) = values
  cases values with
  | nil => simp
  | cons first rest =>
    simp only [mem_cons, forall_eq_or_imp, all_eq_true, beq_iff_eq]
    constructor
    · intro same
      split at same
      next each =>
        cases same
        exact ⟨.inl rfl, rfl, each⟩
      · cases same
    · rintro ⟨-, rfl, each⟩
      exact if_pos each

namespace Method

variable {m : Method} {subst : Substitution}

/-! ## The pass over the body -/

/-- What a statement adds to the table and to the statements that go. -/
def noteCopy (m : Method) (state : Substitution × Array Bool) (id : StmtId) :
    Substitution × Array Bool :=
  let (subst, goes) := copyStep state.1 (m.action id)
  (subst, if goes then state.2.setIfInBounds id true else state.2)

/-- What stands for what after the pass, and the statements that go. -/
def copies (m : Method) : Substitution × Array Bool :=
  m.order.toList.foldl m.noteCopy
    (Substitution.identity m.locals.size, Array.replicate m.stmts.size false)

theorem propagateCopies_eq (m : Method) : m.propagateCopies =
    if m.copies.1.isIdentity then (m.removeWhere fun id => m.copies.2.getD id false, false)
    else ((m.removeWhere fun id => m.copies.2.getD id false).mapActions
      (Action.substitute m.copies.1), true) := by
  unfold propagateCopies copies
  rw [Array.foldl_toList]
  rfl

/-- What a table lets stand for a local has its value. -/
def Mirrored (m : Method) (subst : Substitution) : Prop :=
  ∀ x next, subst.getD x none = some next → m.Mirrors x next

theorem Mirrored.resolve (mirrored : m.Mirrored subst) (x : LocalId) :
    m.Mirrors x (subst.resolve x) := by
  have follow : ∀ fuel x, m.Mirrors x (subst.find fuel x) := by
    intro fuel
    induction fuel with
    | zero => exact .refl
    | succ fuel ih =>
      intro x
      rw [find]
      cases found : subst.getD x none with
      | none => exact .refl x
      | some next => exact (mirrored x next found).trans (ih next)
  exact follow subst.size x

/-- A statement that defines a local that another one stands for, or that no run ever sets, since
what is copied has the value of the local itself. -/
inductive Redundant (m : Method) (subst : Substitution) : Action → Prop where
  | own (x y : LocalId) (mirrors : m.Mirrors y x) : Redundant m subst (.assign x (.read y))
  | replaced (a : Action) (x value : LocalId) (quiet : a.isQuiet = true)
      (defines : a.defines? = some x) (entry : subst.getD x none = some value) : Redundant m subst a

/-- What the pass makes of one statement: it stays and adds nothing, it copies what it defines, or
it defines a local that gets an entry. -/
inductive CopyCase (m : Method) (subst : Substitution) (a : Action) :
    Substitution × Bool → Prop where
  | stays : CopyCase m subst a (subst, false)
  | own (x y : LocalId) (copies : a = .assign x (.read y)) (same : subst.resolve y = x) :
      CopyCase m subst a (subst, true)
  | replaced (x value : LocalId) (quiet : a.isQuiet = true) (defines : a.defines? = some x)
      (inside : x < subst.size) (different : value ≠ x) (free : subst.getD value none = none)
      (mirrors : m.Mirrors x value) : CopyCase m subst a (subst.insert x value, true)

theorem copyStep_phi (subst : Substitution) (target : LocalId) (args : List PhiArg) :
    copyStep subst (.phi target args) = match soleValue subst target args with
      | some value => (subst.insert target value, true)
      | none => (subst, false) := rfl

theorem InSsa.copyCase (inSsa : m.InSsa) (mirrored : m.Mirrored subst) (layered : subst.Layered)
    (size : subst.size = m.locals.size) {a : Action} (listed : a ∈ m.actions) :
    m.CopyCase subst a (copyStep subst a) := by
  obtain ⟨position, found⟩ := mem_iff_getElem?.mp listed
  have known := inSsa.known a listed
  cases a with
  | assign target value =>
    have proper := inSsa.proper.operands _ listed value mem_cons_self
    cases proper with
    | @leaf head isLeaf =>
      cases head with
      | read source =>
        show m.CopyCase subst _ (if subst.resolve source = target then subst
          else subst.insert target (subst.resolve source), true)
        split
        next same => exact .own target source rfl same
        next other =>
          refine .replaced target _ rfl rfl (size ▸ known target rfl) other
            (layered.getD_resolve source) ?_
          by_cases itself : target = source
          · exact itself ▸ mirrored.resolve source
          · exact (mirrors_of_copy inSsa.tidy inSsa.proper inSsa.single itself found).trans
              (mirrored.resolve source)
      | _ => exact .stays
    | @inner head args inner =>
      cases head with
      | read => cases inner
      | _ => exact .stays
  | phi target args =>
    rw [copyStep_phi]
    cases sole : soleValue subst target args with
    | none => exact .stays
    | some value =>
      obtain ⟨other, ⟨arg, member, same⟩, all⟩ := soleValue_eq_some.mp sole
      refine .replaced target value rfl rfl (size ▸ known target rfl) other
        (same ▸ layered.getD_resolve arg.value) ?_
      refine mirrors_of_phi inSsa.tidy inSsa.proper inSsa.single inSsa.whole other.symm found ?_
      intro arg member
      have mirrors := mirrored.resolve arg.value
      rcases all arg member with same | same
      · exact .inl (same ▸ mirrors)
      · exact .inr (same ▸ mirrors)
  | _ => exact .stays

/-- What holds when the pass has come by some statements. -/
structure PassedBy (m : Method) (seen : List StmtId) (state : Substitution × Array Bool) : Prop where
  size : state.1.size = m.locals.size
  sizeGone : state.2.size = m.stmts.size
  mirrored : m.Mirrored state.1
  layered : state.1.Layered
  /-- Entries are those of locals that the statements define. -/
  source : ∀ x value, state.1.getD x none = some value →
    ∃ id ∈ seen, state.2.getD id false = true ∧ (m.action id).defines? = some x
  gone : ∀ id, state.2.getD id false = true → id ∈ seen ∧ m.Redundant state.1 (m.action id)
  /-- As long as there is no entry, only copies of a local to itself go. -/
  left : (∀ x : LocalId, state.1.getD x none = none) → ∀ id ∈ seen, state.2.getD id false = false →
    copyStep state.1 (m.action id) = (state.1, false)

theorem PassedBy.start (m : Method) : m.PassedBy []
    (identity m.locals.size, Array.replicate m.stmts.size false) where
  size := Array.size_replicate
  sizeGone := Array.size_replicate
  mirrored := by
    intro x next found
    rw [getD_identity] at found
    cases found
  layered := .identity _
  source := by
    intro x value found
    rw [getD_identity] at found
    cases found
  gone := by
    intro id found
    rw [getD_replicate] at found
    cases found
  left := fun _ _ contrary => nomatch contrary

theorem PassedBy.step (inSsa : m.InSsa) {seen : List StmtId} {state : Substitution × Array Bool}
    (noted : m.PassedBy seen state) (listed : seen ⊆ m.order.toList) {id : StmtId}
    (linked : id ∈ m.order.toList) (new : id ∉ seen) :
    m.PassedBy (seen ++ [id]) (m.noteCopy state id) := by
  obtain ⟨subst, gone⟩ := state
  have made := inSsa.tidy.made id linked
  have marks : ∀ other, (gone.setIfInBounds id true).getD other false =
      if other = id then true else gone.getD other false := by
    intro other
    simp only [getD_set, noted.sizeGone, made, and_true]
  have earlier : ∀ {other}, other ∈ seen → other ∈ seen ++ [id] := fun member =>
    mem_append_left _ member
  have last : id ∈ seen ++ [id] := by simp
  have step := inSsa.copyCase noted.mirrored noted.layered noted.size
    (mem_map_of_mem linked : m.action id ∈ m.actions)
  rw [noteCopy]
  generalize result : copyStep subst (m.action id) = after at step
  cases step with
  | stays =>
    refine ⟨noted.size, noted.sizeGone, noted.mirrored, noted.layered, fun x value found => ?_,
      fun other marked => ?_, fun empty other member kept => ?_⟩
    · obtain ⟨source, member, rest⟩ := noted.source x value found
      exact ⟨source, earlier member, rest⟩
    · exact ⟨earlier (noted.gone other marked).1, (noted.gone other marked).2⟩
    · rcases mem_append.mp member with before | here
      · exact noted.left empty other before kept
      · rwa [mem_singleton.mp here]
  | own x y copies same =>
    show m.PassedBy _ (subst, gone.setIfInBounds id true)
    refine ⟨noted.size, ?_, noted.mirrored, noted.layered, fun x value found => ?_,
      fun other marked => ?_, fun empty other member kept => ?_⟩
    · exact Array.size_setIfInBounds.trans noted.sizeGone
    · obtain ⟨source, member, goes, defines⟩ := noted.source x value found
      refine ⟨source, earlier member, ?_, defines⟩
      rw [marks, goes, ite_self]
    · rw [marks] at marked
      split at marked
      next same' =>
        rw [same', copies]
        exact ⟨last, .own x y (same ▸ noted.mirrored.resolve y)⟩
      · exact ⟨earlier (noted.gone other marked).1, (noted.gone other marked).2⟩
    · rw [marks] at kept
      split at kept
      · cases kept
      next different =>
        refine noted.left empty other ?_ kept
        exact (mem_append.mp member).resolve_right fun here =>
          different (mem_singleton.mp here)
  | replaced x value quiet defines inside different freeValue mirrors =>
    show m.PassedBy _ (subst.insert x value, gone.setIfInBounds id true)
    have free : subst.getD x none = none := by
      cases entry : subst.getD x none with
      | none => rfl
      | some value =>
        obtain ⟨source, member, -, definesThere⟩ := noted.source x value entry
        obtain rfl := inSsa.eq_of_defines (listed member) linked definesThere defines
        exact absurd member new
    have lookup := getD_insert inside value
    refine ⟨Array.size_setIfInBounds.trans noted.size, Array.size_setIfInBounds.trans noted.sizeGone,
      fun y next found => ?_, noted.layered.insert inside free freeValue different,
      fun y next found => ?_, fun other marked => ?_, fun empty => ?_⟩
    · rw [lookup] at found
      split at found
      next same =>
        cases found
        exact same ▸ mirrors
      · exact noted.mirrored y next found
    · rw [lookup] at found
      split at found
      next same =>
        refine ⟨id, last, ?_, same ▸ defines⟩
        rw [marks, if_pos rfl]
      · obtain ⟨source, member, goes, defines⟩ := noted.source y next found
        refine ⟨source, earlier member, ?_, defines⟩
        rw [marks, goes, ite_self]
    · rw [marks] at marked
      split at marked
      next same =>
        rw [same]
        refine ⟨last, .replaced _ x value quiet defines ?_⟩
        rw [lookup, if_pos rfl]
      · obtain ⟨member, redundant⟩ := noted.gone other marked
        refine ⟨earlier member, ?_⟩
        generalize m.action other = a at redundant
        cases redundant with
        | own z y mirrors => exact .own z y mirrors
        | replaced _ z found quiet defines entry =>
          refine .replaced a z found quiet defines ?_
          rw [lookup, if_neg, entry]
          rintro rfl
          rw [free] at entry
          cases entry
    · have entry := empty x
      rw [lookup, if_pos rfl] at entry
      cases entry

theorem InSsa.passedBy (inSsa : m.InSsa) : m.PassedBy m.order.toList m.copies := by
  have pass : ∀ rest seen state, m.PassedBy seen state → seen ++ rest = m.order.toList →
      m.PassedBy m.order.toList (rest.foldl m.noteCopy state) := by
    intro rest
    induction rest with
    | nil =>
      intro seen state noted all
      rwa [← all, append_nil]
    | cons id rest ih =>
      intro seen state noted all
      have nodup := all ▸ inSsa.tidy.nodup
      refine ih (seen ++ [id]) _ (noted.step inSsa ?_ ?_ ?_) (by simpa using all)
      · exact all ▸ subset_append_left _ _
      · exact all ▸ mem_append_right _ mem_cons_self
      · exact fun before => (nodup_append.mp nodup).2.2 id before id mem_cons_self rfl
  exact pass _ [] _ (.start m) rfl

theorem PassedBy.survives {seen : List StmtId} {state : Substitution × Array Bool}
    (noted : m.PassedBy seen state) (single : m.SingleAssignment) {position : Nat}
    {assigned entered : List LocalId} {origin : Label × Bool}
    (trail : m.Trail position assigned origin entered) {x : LocalId} (listed : x ∈ assigned)
    (last : state.1.getD x none = none) : m.Survives (fun id => !state.2.getD id false) x := by
  intro id linked goes own
  have redundant := (noted.gone id (by simpa using goes)).2
  obtain ⟨place, here⟩ := mem_iff_getElem?.mp linked
  generalize action : m.action id = a at redundant own
  cases redundant with
  | own y source mirrors =>
    obtain rfl := Option.some.inj own
    exact not_assigned_of_copy single (action ▸ getElem?_actions here) mirrors.after trail listed
  | replaced _ y value quiet defines entry =>
    obtain rfl := Option.some.inj (own.symm.trans defines)
    rw [last] at entry
    cases entry

/-! ## Rounds -/

/-- A method in the same form whose runs go beside those of the first, and which defines nothing
else. -/
structure Replaces (m n : Method) : Prop where
  inSsa : n.InSsa
  fewer : ∀ x, n.Defines x → m.Defines x
  runs : ∀ {V : Type} (w : World V), m.TakesPlace w (State.Abreast m n) n

theorem Replaces.trans {n p : Method} (first : m.Replaces n) (second : n.Replaces p) :
    m.Replaces p :=
  ⟨second.inSsa, fun x defined => first.fewer x (second.fewer x defined), fun w =>
    (first.runs w).comp (second.runs w) fun _ _ _ one other => one.trans other second.fewer⟩

theorem Rewrites.replaces {n : Method} {keep : StmtId → Bool} {f : LocalId → LocalId}
    (rewrites : m.Rewrites n keep (fun l => .read (f l)) f) (inSsa : m.InSsa)
    (mirrors : ∀ x, m.Mirrors x (f x))
    (stays : ∀ (position : Nat) (id : StmtId) (assigned entered : List LocalId)
      (origin : Label × Bool), m.order.toList[position]? = some id → keep id = true →
      m.Trail position assigned origin entered →
      (∀ x ∈ (m.action id).uses, m.Survives keep (f x)) ∧
        ∀ arg, picked origin (m.action id).phiArgs = some arg → m.Survives keep (f arg.value)) :
    m.Replaces n := by
  have backed : m.Backed n keep := by
    refine rewrites.backed inSsa ?_ fun _ _ _ _ _ here kept trail old picked_ entered =>
      ⟨(stays _ _ _ _ _ here kept trail).2 old picked_,
        (mirrors old.value).after.entered _ _ _ _ trail entered⟩
    intro position id assigned entered origin here kept trail x used known y read
    obtain rfl := mem_singleton.mp read
    exact ⟨(stays _ _ _ _ _ here kept trail).1 x used,
      (mirrors x).after.assigned _ _ _ _ trail known⟩
  refine ⟨rewrites.inSsa_target inSsa backed, fun x defined =>
    (rewrites.defines_of_target inSsa defined).1, fun {V} w => rewrites.takesPlace inSsa backed ?_⟩
  refine ⟨fun done s id reached here kept x used v set env caught history alike => ?_,
    fun done s id reached here kept arg picks => ?_⟩
  · have found := getElem?_actions (m := m) here
    obtain ⟨assigned, entered, trail, -⟩ := tracked_of_run inSsa.tidy inSsa.proper reached
      (lt_of_get found)
    have known := inSsa.single.knows found used
    have same := ((mirrors x).matches_ w done s reached).env known
    have survives := (stays _ _ _ _ _ here kept trail).1 x used
    rw [Expr.read, Expr.leaf, evaluate, alike _ survives ((mirrors x).knows known), ← same, set]
    rfl
  · have found := getElem?_actions (m := m) here
    cases action : m.action id with
    | phi target args =>
      rw [action] at picks found
      exact (((mirrors arg.value).matches_ w done s reached).entering
        (inSsa.single.carries found picks)).symm
    | _ =>
      rw [action] at picks
      cases picks

theorem substitute_eq (subst : Substitution) : Action.substitute subst =
    Action.mapReads (fun l => .read (subst.resolve l)) subst.resolve := by
  have expressions : subst.applyExpr = Expr.mapReads fun l => .read (subst.resolve l) := by
    unfold applyExpr Expr.mapReads
    refine congrArg Expr.mapNodes (funext fun e => ?_)
    cases e.local? <;> rfl
  funext a
  cases a with
  | phi => rfl
  | _ => simp only [Action.substitute, Action.mapReads, expressions]

/-- No statement copies a local, and no join reads one local only, apart from its own. -/
structure Uncopied (m : Method) : Prop where
  copies : ∀ target source args, Action.assign target (.node (.read source) args) ∉ m.actions
  joins : ∀ target args, Action.phi target args ∈ m.actions → ∀ v ∈ args.map PhiArg.value,
    v ≠ target → ∃ arg ∈ args, arg.value ≠ v ∧ arg.value ≠ target

theorem uncopied_of_copyStep (empty : ∀ x : LocalId, subst.getD x none = none)
    (left : ∀ a ∈ m.actions, copyStep subst a = (subst, false)) : m.Uncopied := by
  refine ⟨fun target source args listed => ?_, fun target args listed v member other => ?_⟩
  · cases congrArg Prod.snd (left _ listed)
  · by_contra none
    simp only [not_exists, not_and, ne_eq] at none
    obtain ⟨arg, inside, same⟩ := mem_map.mp member
    have sole : soleValue subst target args = some v := by
      refine soleValue_eq_some.mpr ⟨other, ⟨arg, inside, ?_⟩, fun arg inside => ?_⟩
      · rwa [resolve_of_none (empty _)]
      · rw [resolve_of_none (empty _)]
        by_cases own : arg.value = target
        · exact .inr own
        · exact .inl (Classical.not_not.mp fun apart => none arg inside apart own)
    have step := congrArg Prod.snd (left _ listed)
    simp only [copyStep, sole] at step
    cases step

/-- A round replaces the method. When it has found something, fewer statements are left; otherwise
nothing is left to find. -/
theorem InSsa.propagateCopies (inSsa : m.InSsa) : m.Replaces m.propagateCopies.1 ∧
    (m.propagateCopies.2 = true → m.propagateCopies.1.order.size < m.order.size) ∧
    (m.propagateCopies.2 = false → m.propagateCopies.1.Uncopied) := by
  have noted := inSsa.passedBy
  have quiet : ∀ id ∈ m.order.toList, m.copies.2.getD id false = true →
      (m.action id).isQuiet = true := by
    intro id _ goes
    have redundant := (noted.gone id goes).2
    generalize m.action id = a at redundant
    cases redundant with
    | own => rfl
    | replaced _ _ _ quiet => exact quiet
  have rewrites : m.Rewrites m.propagateCopies.1 (fun id => !m.copies.2.getD id false)
      (fun l => .read (m.copies.1.resolve l)) m.copies.1.resolve := by
    rw [propagateCopies_eq]
    split
    next empty =>
      have same : m.copies.1.resolve = id := by
        funext x
        exact resolve_of_none (isIdentity_iff.mp empty x)
      rw [same]
      exact inSsa.rewrites_removeWhere quiet
    · rw [substitute_eq]
      exact inSsa.rewrites_mapActions quiet (Readings.plain_read _) _ (Action.label?_mapReads _ _)
        fun _ _ => rfl
  have mirrors := noted.mirrored.resolve
  have last := noted.layered.getD_resolve
  refine ⟨rewrites.replaces inSsa mirrors fun position id assigned entered origin here _ trail =>
    ⟨fun x used => ?_, fun arg picks => ?_⟩, fun changed => ?_, fun unchanged => ?_⟩
  · refine noted.survives inSsa.single trail ?_ (last x)
    exact (mirrors x).after.assigned _ _ _ _ trail
      (inSsa.single.reads position _ x (getElem?_actions here) used assigned trail.path)
  · have found := getElem?_actions (m := m) here
    cases action : m.action id with
    | phi target args =>
      rw [action] at picks found
      refine noted.survives inSsa.single trail ?_ (last arg.value)
      exact (mirrors arg.value).after.assigned _ _ _ _ trail (trail.entered_subset
        (inSsa.single.joins position target args arg _ _ _ found trail picks))
    | _ =>
      rw [action] at picks
      cases picks
  · have found : ¬ m.copies.1.isIdentity = true := by
      intro empty
      rw [propagateCopies_eq, if_pos empty] at changed
      cases changed
    rw [isIdentity_iff, not_forall] at found
    obtain ⟨x, entry⟩ := found
    obtain ⟨value, entry⟩ := Option.ne_none_iff_exists'.mp entry
    obtain ⟨id, linked, goes, -⟩ := noted.source x value entry
    rw [← Array.length_toList, ← Array.length_toList, rewrites.order]
    refine length_filter_lt_length_iff_exists.mpr ⟨id, linked, ?_⟩
    simp [goes]
  · have empty : m.copies.1.isIdentity = true := by
      by_contra found
      rw [propagateCopies_eq, if_neg found] at unchanged
      cases unchanged
    have none := isIdentity_iff.mp empty
    refine uncopied_of_copyStep none fun a member => ?_
    obtain ⟨id, listed, same⟩ := mem_map.mp member
    obtain ⟨found, kept⟩ := rewrites.mem_actions listed
    have itself : m.copies.1.resolve = fun x => x :=
      funext fun x => resolve_of_none (none x)
    have action := rewrites.action id listed
    rw [itself] at action
    rw [rewrites.order] at listed
    rw [← same, action.trans (inSsa.proper.operands _ found).mapReads_self]
    exact noted.left none id (mem_of_mem_filter listed) (by simpa using kept)

theorem InSsa.propagateAll (inSsa : m.InSsa) {fuel : Nat} (enough : m.order.size < fuel) :
    m.Replaces (m.propagateAll fuel) ∧ (m.propagateAll fuel).Uncopied := by
  induction fuel generalizing m with
  | zero => exact absurd enough (Nat.not_lt_zero _)
  | succ fuel ih =>
    obtain ⟨replaces, shorter, settled⟩ := inSsa.propagateCopies
    have unfolded : m.propagateAll (fuel + 1) =
        if m.propagateCopies.2 then m.propagateCopies.1.propagateAll fuel
        else m.propagateCopies.1 := rfl
    rw [unfolded]
    cases changed : m.propagateCopies.2 with
    | true =>
      obtain ⟨later, nothing⟩ := ih replaces.inSsa (by
        have less := shorter changed
        omega)
      rw [if_pos rfl]
      exact ⟨replaces.trans later, nothing⟩
    | false =>
      rw [if_neg Bool.false_ne_true]
      exact ⟨replaces, settled changed⟩

end Method

end DexLift.Ir
