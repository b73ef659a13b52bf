import DexLift.Simplify.Construction
import DexLift.Proofs.Ir.Rewriting
import DexLift.Proofs.Simplify.Folding
import Mathlib.Data.List.TakeWhile

/-!
# Objects and their constructors

An allocation is taken out and the constructor call behind it becomes the
definition of the object. Nothing in between mentions the object or ends a block,
so every path through the new body is one through the old body, which has
assigned at most the object in addition: on the way to the constructor, and
behind an exception that was thrown on this way. No statement on the way reads the
object. A handler may: then the local that it reads is not assigned any more.
-/

namespace DexLift.Ir

open List Ir.Flow Ir.Action Fold

variable {position next : Nat} {m : Method} {assigned : List LocalId} {a b : Action} {l : LocalId}
  {live : Liveness} {receiver : Expr}

/-- Some way from a position reads a local before defining it. An exceptional edge leaves a
statement before its own definition takes effect. -/
inductive Flow.ReadsFrom (f : Flow) (l : LocalId) : Nat → Prop where
  | here {position : Nat} (read : l ∈ (f.action position).uses) : ReadsFrom f l position
  | normal {position next : Nat} (edge : next ∈ f.succsOf position)
      (kept : (f.action position).defines? ≠ some l) (later : ReadsFrom f l next) :
      ReadsFrom f l position
  | thrown {position next : Nat} (edge : next ∈ f.exSuccsOf position)
      (later : ReadsFrom f l next) : ReadsFrom f l position

theorem Flow.Reaches.exists_path {f : Flow} (reached : f.Reaches position) :
    ∃ assigned, f.Path position assigned := by
  induction reached with
  | start => exact ⟨[], .start⟩
  | edge _ edge _ ih =>
    obtain ⟨assigned, path⟩ := ih
    rcases edge with edge | edge
    · exact ⟨_, path.normal edge⟩
    · exact ⟨_, path.thrown edge⟩

theorem Flow.reaches_of_path (path : (ofMethod m).Path position assigned)
    (inside : position < (ofMethod m).size) : (ofMethod m).Reaches position := by
  induction path with
  | start => exact .start inside
  | normal _ edge ih =>
    exact (ih (lt_size_of_edge (.inl edge))).edge (.inl edge) inside
  | thrown _ edge ih =>
    exact (ih (lt_size_of_edge (.inr edge))).edge (.inr edge) inside

/-- Whether a statement allocates objects without operands only. -/
def Action.allocatesBare : Action → Bool
  | .assign _ (.node (.new _) operands) => operands.isEmpty
  | _ => true

theorem Flow.lt_length_of_succ (edge : next ∈ (ofMethod m).succsOf position) :
    position < m.actions.length := by
  have bound := lt_size_of_edge (.inl edge)
  rwa [size_ofMethod, ← m.length_actions] at bound

theorem eq_of_defines {actions : List Action} (once : (actions.filterMap defines?).Nodup)
    {other : Nat} (here : actions[position]? = some a) (there : actions[other]? = some b)
    (own : a.defines? = some l) (ownOther : b.defines? = some l) : position = other := by
  obtain ⟨inside, rfl⟩ := List.getElem?_eq_some_iff.mp here
  obtain ⟨insideOther, rfl⟩ := List.getElem?_eq_some_iff.mp there
  have apart := pairwise_iff_getElem.mp (pairwise_filterMap.mp once)
  rcases Nat.lt_trichotomy position other with less | same | greater
  · exact absurd rfl (apart _ _ inside insideOther less l own l ownOther)
  · exact same
  · exact absurd rfl (apart _ _ insideOther inside greater l ownOther l own)

namespace Method

def AssignsReads (m : Method) (l : LocalId) : Prop :=
  ∀ position < (Flow.ofMethod m).size, (Flow.ofMethod m).isReachable position = true →
    l ∈ ((Flow.ofMethod m).action position).uses →
      Holds (definitelyAssigned (Flow.ofMethod m) m.locals.size) position l

instance (m : Method) (l : LocalId) : Decidable (m.AssignsReads l) :=
  inferInstanceAs (Decidable (∀ position < _, _ → _ → _))

/-- An allocation and a constructor call on the object, with nothing in between that mentions the
object or ends the block. -/
structure Joinable (m : Method) (l : LocalId) (place call : Nat) : Prop where
  before : place < call
  ends : ∃ desc operands a, m.actions[place]? = some (.assign l (.node (.new desc) operands)) ∧
    m.actions[call]? = some a ∧ (a.constructorCall? l desc).isSome = true
  untouched : ∀ i a, place < i → i < call → m.actions[i]? = some a →
    a.mentionsLocal l = false ∧ a.endsBlock = false

/-- A handler may read an object before its constructor has run: it takes what is thrown behind the
allocation, by the constructor call at the latest. -/
def Exposed (m : Method) (l : LocalId) : Prop :=
  ∃ place call position handler, m.Joinable l place call ∧ place < position ∧ position ≤ call ∧
    handler ∈ (Flow.ofMethod m).exSuccsOf position ∧ (Flow.ofMethod m).ReadsFrom l handler

theorem holds_of_readsFrom (solves : Liveness.Solves (ofMethod m) live)
    (reads : (ofMethod m).ReadsFrom l position) : Holds live.before position l := by
  induction reads with
  | @here position read =>
    have inside : position < (ofMethod m).size := by
      rw [action_ofMethod] at read
      rw [size_ofMethod, ← length_actions]
      refine Nat.lt_of_not_le fun outside => ?_
      rw [getElem?_eq_none outside] at read
      cases read
    refine solves.read position inside l ?_
    rw [reads, LocalSet.mem_ofList]
    simp [read]
  | normal edge kept _ ih =>
    have inside := lt_size_of_edge (.inl edge)
    exact solves.kept _ inside l (solves.next _ inside _ edge l ih) kept
  | thrown edge _ ih =>
    exact solves.thrown _ (lt_size_of_edge (.inr edge)) _ edge l ih

theorem not_exposed (solves : Liveness.Solves (ofMethod m) live)
    (dead : ∀ position < (ofMethod m).size, ∀ handler ∈ (ofMethod m).exSuccsOf position,
      ¬ Holds live.before handler l) : ¬ m.Exposed l := by
  rintro ⟨_, _, position, handler, -, -, -, edge, reads⟩
  exact dead position (lt_size_of_edge (.inr edge)) handler edge (holds_of_readsFrom solves reads)

/-- A body as it is built: the links are in order, only nodes that evaluate their operands have
some, allocations have none, and no local is defined twice. -/
structure WellMade (m : Method) : Prop where
  tidy : m.Tidy
  proper : ∀ a ∈ m.actions, a.Proper
  bare : ∀ a ∈ m.actions, a.allocatesBare = true
  once : (m.actions.filterMap Action.defines?).Nodup

end Method

/-- The statement that an allocation and its constructor call become. -/
def construction (l : LocalId) (desc : Text) (method : MethodRef) (args : List Expr) : Action :=
  .assign l (.node (.construct desc method) args)

/-- One method is another with an allocation joined with its constructor call. -/
structure Pairs (source target : Method) (f : Fold) (desc : Text) (method : MethodRef)
    (args : List Expr) : Prop where
  takes : f.Takes (construction f.l desc method args) source target
  traps : target.traps = source.traps
  locals : target.locals = source.locals
  value : f.value = .node (.new desc) []
  reader : f.reader = .void (.node (.invoke .direct method) (.read f.l :: args))
  calls : f.reader.constructorCall? f.l desc = some (method, args)
  unread : ∀ a ∈ args, f.l ∉ a.uses
  untouched : ∀ a ∈ f.between, a.mentionsLocal f.l = false ∧ a.endsBlock = false

section Statements

variable {l : LocalId} {desc : Text} {method : MethodRef} {args : List Expr}

theorem uses_construction : (construction l desc method args).uses = args.flatMap Expr.uses := by
  rw [construction, uses_eq]
  have inner : (Expr.node (.construct desc method) args).uses = args.flatMap Expr.uses :=
    Expr.uses_inner rfl
  simp [parts, inner]

theorem uses_call :
    (void (.node (.invoke .direct method) (receiver :: args))).uses =
      receiver.uses ++ args.flatMap Expr.uses := by
  rw [uses_eq]
  have inner : (Expr.node (.invoke .direct method) (receiver :: args)).uses =
      (receiver :: args).flatMap Expr.uses := Expr.uses_inner rfl
  simp [parts, inner]

theorem mentionsLocal_call {x : LocalId} (other : x ≠ l)
    (free : (construction l desc method args).mentionsLocal x = false) :
    (void (.node (.invoke .direct method) (.read l :: args))).mentionsLocal x = false := by
  have read : (Expr.read l).uses = [l] := rfl
  unfold mentionsLocal at free ⊢
  rw [uses_construction] at free
  rw [uses_call, read]
  simpa [phiArgs, construction, other] using free

theorem proper_construction
    (proper : (void (.node (.invoke .direct method) (receiver :: args))).Proper) :
    (construction l desc method args).Proper := by
  intro e member
  rw [mem_singleton.mp member]
  cases proper _ mem_cons_self with
  | inner _ operands =>
    exact .inner rfl fun a listed => operands a (.tail _ listed)

theorem canThrow_call :
    (void (.node (.invoke .direct method) (receiver :: args))).canThrow = true := by
  rw [canThrow_eq rfl]
  have inner : (Expr.node (.invoke .direct method) (receiver :: args)).canThrow =
      ((Head.invoke .direct method).throws || (receiver :: args).any Expr.canThrow) :=
    Expr.canThrow_inner rfl
  simp [parts, inner, Head.throws]

end Statements

namespace Pairs

variable {source target : Method} {f : Fold} {desc : Text} {method : MethodRef} {args : List Expr}
  (pairs : Pairs source target f desc method args)

include pairs

/-! ## Positions -/

theorem get_place : source.actions[f.place]? = some (.assign f.l (.node (.new desc) [])) :=
  pairs.value ▸ pairs.takes.get_place

theorem get_call : source.actions[f.place + 1 + f.gap]? =
    some (.void (.node (.invoke .direct method) (.read f.l :: args))) :=
  pairs.reader ▸ pairs.takes.get_reader

/-- What was true of a statement: its label, its targets, and what it reads. It defines nothing that
it does not define any more. -/
theorem exists_get (found : target.actions[position]? = some b) :
    ∃ a, source.actions[f.origin position]? = some a ∧ a.label? = b.label? ∧
      a.targets = b.targets ∧ a.fallsThrough = b.fallsThrough ∧ a.endsBlock = b.endsBlock ∧
      (b.canThrow = true → a.canThrow = true) ∧ b.uses ⊆ a.uses ∧
      ∀ l, a.defines? = some l → b.defines? = some l := by
  rcases pairs.takes.get_cases found with ⟨-, same⟩ | ⟨rfl, rfl⟩
  · exact ⟨b, same, rfl, rfl, rfl, rfl, id, fun _ read => read, fun _ own => own⟩
  · refine ⟨.void (.node (.invoke .direct method) (.read f.l :: args)), ?_, rfl, rfl, rfl, rfl,
      fun _ => canThrow_call, ?_, ?_⟩
    · rw [origin_of_ge (by omega), Nat.add_right_comm]
      exact pairs.get_call
    · rw [uses_construction, uses_call]
      exact subset_append_right _ _
    · intro l own
      cases own

theorem exists_target (found : source.actions[f.origin position]? = some a) :
    ∃ b, target.actions[position]? = some b := by
  have inside : position < target.actions.length := by
    have bound := lt_of_get found
    have length := pairs.takes.length_eq
    have inBody := lt_of_get pairs.takes.get_changed
    unfold origin at bound
    split at bound <;> omega
  exact ⟨_, getElem?_eq_getElem inside⟩

theorem covered_origin {t : Trap} (covers : target.covered t position = true) :
    source.covered t (f.origin position) = true := by
  unfold Method.covered at covers ⊢
  split at covers
  next start stop isStart isStop =>
    simp only [pairs.takes.find_iff.mp isStart, pairs.takes.find_iff.mp isStop, Bool.and_eq_true,
      decide_eq_true_eq, origin_lt_origin] at covers ⊢
    exact covers
  · cases covers

/-! ## Edges -/

theorem succ_origin (edge : next ∈ (ofMethod target).succsOf position) :
    f.origin next ∈ (ofMethod source).succsOf (f.origin position) ∨
      (next = f.place ∧ f.place ∈ (ofMethod source).succsOf (f.origin position)) := by
  have length := pairs.takes.length_eq
  obtain ⟨b, found, goes⟩ := pairs.takes.tidyTarget.mem_succsOf.mp edge
  obtain ⟨a, here, -, targets, falls, -⟩ := pairs.exists_get found
  rcases goes with ⟨continues, inside, rfl⟩ | ⟨x, member, there⟩
  · have onward : f.origin position + 1 ∈ (ofMethod source).succsOf (f.origin position) := by
      refine pairs.takes.tidy.mem_succsOf.mpr ⟨a, here, .inl ⟨falls ▸ continues, ?_, rfl⟩⟩
      unfold origin
      split <;> omega
    rcases Nat.lt_trichotomy (position + 1) f.place with less | same | greater
    · left
      rw [origin_of_lt less]
      rwa [origin_of_lt (Nat.lt_of_succ_lt less)] at onward ⊢
    · right
      rw [origin_of_lt (by omega)] at onward ⊢
      exact ⟨same, same ▸ onward⟩
    · left
      rw [origin_of_ge (show f.place ≤ position + 1 by omega)]
      rwa [origin_of_ge (show f.place ≤ position by omega)] at onward ⊢
  · exact .inl (pairs.takes.tidy.mem_succsOf.mpr
      ⟨a, here, .inr ⟨x, targets ▸ member, pairs.takes.find_iff.mp there⟩⟩)

theorem thrown_origin (edge : next ∈ (ofMethod target).exSuccsOf position) :
    f.origin next ∈ (ofMethod source).exSuccsOf (f.origin position) := by
  obtain ⟨b, found, throws, t, listed, covers, there⟩ := pairs.takes.tidyTarget.mem_exSuccsOf.mp edge
  obtain ⟨a, here, -, -, -, -, throws', -⟩ := pairs.exists_get found
  exact pairs.takes.tidy.mem_exSuccsOf.mpr ⟨a, here, throws' throws, t, pairs.traps ▸ listed,
    pairs.covered_origin covers, pairs.takes.find_iff.mp there⟩

theorem succ_place : f.place + 1 ∈ (ofMethod source).succsOf f.place := by
  have bound := lt_of_get pairs.get_call
  exact pairs.takes.tidy.mem_succsOf.mpr ⟨_, pairs.get_place, .inl ⟨rfl, by omega, rfl⟩⟩

theorem uses_origin (read : l ∈ ((ofMethod target).action position).uses) :
    l ∈ ((ofMethod source).action (f.origin position)).uses := by
  rw [action_ofMethod] at read ⊢
  cases found : target.actions[position]? with
  | none =>
    rw [found] at read
    cases read
  | some b =>
    obtain ⟨a, here, -, -, -, -, -, uses, -⟩ := pairs.exists_get found
    rw [found] at read
    rw [here]
    exact uses read

theorem defines_origin (inside : position < target.actions.length)
    (own : ((ofMethod source).action (f.origin position)).defines? = some l) :
    ((ofMethod target).action position).defines? = some l := by
  obtain ⟨a, here, -, -, -, -, -, -, defines⟩ :=
    pairs.exists_get (getElem?_eq_getElem inside)
  rw [action_ofMethod, here] at own
  rw [action_ofMethod, getElem?_eq_getElem inside]
  exact defines l own

theorem action_place : (ofMethod source).action f.place = .assign f.l (.node (.new desc) []) := by
  rw [action_ofMethod, pairs.get_place, Option.getD_some]

/-! ## Paths -/

theorem lift (path : (ofMethod target).Path position assigned) :
    ∃ earlier, (ofMethod source).Path (f.origin position) earlier ∧
      earlier ⊆ f.l :: assigned := by
  have through : ∀ {earlier assigned : List LocalId},
      (ofMethod source).Path f.place earlier → earlier ⊆ f.l :: assigned →
      ∃ earlier, (ofMethod source).Path (f.place + 1) earlier ∧
        earlier ⊆ f.l :: assigned := by
    intro earlier assigned path sub
    refine ⟨_, path.normal pairs.succ_place, ?_⟩
    rw [pairs.action_place]
    intro l member
    rcases mem_cons.mp member with rfl | before
    · exact mem_cons_self
    · exact sub before
  induction path with
  | start =>
    rcases Nat.eq_zero_or_pos f.place with first | later
    · rw [origin_of_ge (le_of_eq first), ← first]
      exact through (first ▸ .start) (nil_subset _)
    · rw [origin_of_lt later]
      exact ⟨[], .start, nil_subset _⟩
  | @normal position next assigned path edge ih =>
    obtain ⟨earlier, lifted, sub⟩ := ih
    have inside := lt_length_of_succ edge
    have wider : ((ofMethod source).action (f.origin position)).defines?.toList ++ earlier ⊆
        f.l :: (((ofMethod target).action position).defines?.toList ++ assigned) := by
      intro l member
      rcases mem_append.mp member with own | before
      · exact .tail _ (mem_append_left _
          (Option.mem_toList.mpr (pairs.defines_origin inside (Option.mem_toList.mp own))))
      · rcases mem_cons.mp (sub before) with rfl | other
        · exact mem_cons_self
        · exact .tail _ (mem_append_right _ other)
    rcases pairs.succ_origin edge with stayed | ⟨rfl, entering⟩
    · exact ⟨_, lifted.normal stayed, wider⟩
    · rw [origin_of_ge le_rfl]
      exact through (lifted.normal entering) wider
  | thrown path edge ih =>
    obtain ⟨earlier, lifted, sub⟩ := ih
    exact ⟨earlier, lifted.thrown (pairs.thrown_origin edge), sub⟩

theorem get_between {i : Nat} (low : f.place < i) (high : i < f.place + 1 + f.gap)
    (found : source.actions[i]? = some a) : a.mentionsLocal f.l = false ∧ a.endsBlock = false := by
  obtain ⟨j, rfl⟩ := Nat.exists_eq_add_of_lt low
  have inside : j < f.gap := by omega
  obtain ⟨b, member, there⟩ := pairs.takes.get_between inside
  rw [Nat.add_right_comm, there] at found
  exact Option.some.inj found ▸ pairs.untouched b member

theorem joinable : source.Joinable f.l f.place (f.place + 1 + f.gap) where
  before := by omega
  ends := by
    have called := pairs.get_call
    rw [← pairs.reader] at called
    exact ⟨desc, [], f.reader, pairs.get_place, called, by rw [pairs.calls]; rfl⟩
  untouched := fun _ _ low high found => pairs.get_between low high found

theorem not_read (low : f.place ≤ position) (high : position ≤ f.place + f.gap) :
    f.l ∉ ((ofMethod target).action position).uses := by
  rw [action_ofMethod]
  cases found : target.actions[position]? with
  | none => exact not_mem_nil
  | some b =>
    rcases pairs.takes.get_cases found with ⟨other, same⟩ | ⟨-, rfl⟩
    · rw [origin_of_ge low] at same
      have untouched := (pairs.get_between (Nat.lt_succ_of_le low) (by omega) same).1
      intro read
      simp [mentionsLocal, show f.l ∈ b.uses from read] at untouched
    · rw [Option.getD_some, uses_construction]
      intro read
      obtain ⟨a, member, own⟩ := mem_flatMap.mp read
      exact pairs.unread a member own

theorem eq_of_succ (low : f.place ≤ position) (high : position < f.place + f.gap)
    (edge : next ∈ (ofMethod target).succsOf position) : next = position + 1 := by
  obtain ⟨b, found, goes⟩ := pairs.takes.tidyTarget.mem_succsOf.mp edge
  obtain ⟨a, here, -, targets, -, ends, -⟩ := pairs.exists_get found
  rw [origin_of_ge low] at here
  have untouched := (pairs.get_between (Nat.lt_succ_of_le low) (by omega) here).2
  rcases goes with ⟨-, -, same⟩ | ⟨x, member, -⟩
  · exact same
  · rw [← targets, targets_of_endsBlock untouched] at member
    cases member

/-- What a path has assigned: the object is among it, or was not assigned by some path through the
old body; or the path is on the way to the constructor call, or a read of the object from there on
shows that it is exposed. -/
theorem accounted (path : (ofMethod target).Path position assigned) :
    f.l ∈ assigned ∨
      (∃ earlier, (ofMethod source).Path (f.origin position) earlier ∧ f.l ∉ earlier) ∨
      (f.place ≤ position ∧ position ≤ f.place + f.gap) ∨
      ((ofMethod source).ReadsFrom f.l (f.origin position) → source.Exposed f.l) := by
  induction path with
  | start =>
    rcases Nat.eq_zero_or_pos f.place with first | later
    · exact .inr (.inr (.inl ⟨le_of_eq first, Nat.zero_le _⟩))
    · refine .inr (.inl ⟨[], ?_, not_mem_nil⟩)
      rw [origin_of_lt later]
      exact .start
  | @normal position next assigned path edge ih =>
    have inside := lt_length_of_succ edge
    by_cases own : ((ofMethod target).action position).defines? = some f.l
    · exact .inl (mem_append_left _ (Option.mem_toList.mpr own))
    have kept : ((ofMethod source).action (f.origin position)).defines? ≠ some f.l :=
      fun same => own (pairs.defines_origin inside same)
    rcases ih with already | ⟨earlier, lifted, absent⟩ | ⟨low, high⟩ | shows
    · exact .inl (mem_append_right _ already)
    · rcases pairs.succ_origin edge with stayed | ⟨rfl, -⟩
      · refine .inr (.inl ⟨_, lifted.normal stayed, fun member => ?_⟩)
        rcases mem_append.mp member with here | before
        · exact kept (Option.mem_toList.mp here)
        · exact absent before
      · exact .inr (.inr (.inl ⟨le_rfl, Nat.le_add_right _ _⟩))
    · rcases Nat.eq_or_lt_of_le high with rfl | before
      · refine absurd ?_ own
        rw [action_ofMethod, pairs.takes.get_changed]
        rfl
      · have next_ := pairs.eq_of_succ low before edge
        exact .inr (.inr (.inl ⟨by omega, by omega⟩))
    · rcases pairs.succ_origin edge with stayed | ⟨rfl, -⟩
      · exact .inr (.inr (.inr fun reads => shows (.normal stayed kept reads)))
      · exact .inr (.inr (.inl ⟨le_rfl, Nat.le_add_right _ _⟩))
  | @thrown position next assigned path edge ih =>
    have stayed := pairs.thrown_origin edge
    rcases ih with already | ⟨earlier, lifted, absent⟩ | ⟨low, high⟩ | shows
    · exact .inl already
    · exact .inr (.inl ⟨earlier, lifted.thrown stayed, absent⟩)
    · rw [origin_of_ge low] at stayed
      exact .inr (.inr (.inr fun reads => ⟨f.place, f.place + 1 + f.gap, position + 1, _,
        pairs.joinable, by omega, by omega, stayed, reads⟩))
    · exact .inr (.inr (.inr fun reads => shows (.thrown stayed reads)))

/-! ## What is kept -/

section Kept

variable {l : LocalId} {position : Nat}

theorem isReachable_origin (inside : position < (ofMethod target).size)
    (reached : (ofMethod target).isReachable position = true) :
    f.origin position < (ofMethod source).size ∧
      (ofMethod source).isReachable (f.origin position) = true := by
  obtain ⟨assigned, path⟩ := (isReachable_iff.mp reached).exists_path
  obtain ⟨earlier, lifted, -⟩ := pairs.lift path
  have bound : f.origin position < (ofMethod source).size := by
    rw [size_ofMethod, ← Method.length_actions] at inside ⊢
    have length := pairs.takes.length_eq
    unfold origin
    split <;> omega
  exact ⟨bound, isReachable_iff.mpr (reaches_of_path lifted bound)⟩

/-- A local that is assigned where it was read is assigned where it is read, unless it is the object
and exposed. -/
theorem assignsReads (assigned : source.AssignsReads l) (hidden : l = f.l → ¬ source.Exposed l) :
    target.AssignsReads l := by
  intro position inside reached read
  obtain ⟨bound, reachedBefore⟩ := pairs.isReachable_origin inside reached
  have readBefore := pairs.uses_origin read
  have held := assigned _ bound reachedBefore readBefore
  have always := assigns_of_holds held
  refine holds_definitelyAssigned inside ?_ fun assigned path => ?_
  · rw [pairs.locals]
    exact (definitelyAssigned_fixed _ _).1.lt _ _ held
  · by_cases own : l = f.l
    · subst own
      rcases pairs.accounted path with done | ⟨earlier, lifted, absent⟩ | ⟨low, high⟩ | shows
      · exact done
      · exact absurd (always earlier lifted) absent
      · exact absurd read (pairs.not_read low high)
      · exact absurd (shows (.here readBefore)) (hidden rfl)
    · obtain ⟨earlier, lifted, sub⟩ := pairs.lift path
      exact (mem_cons.mp (sub (always earlier lifted))).resolve_left own

end Kept

/-! ## What is exposed -/

section Exposing

variable {l : LocalId}

theorem get_origin (found : target.actions[position]? = some b)
    (other : b ≠ construction f.l desc method args) :
    source.actions[f.origin position]? = some b := by
  rcases pairs.takes.get_cases found with ⟨-, same⟩ | ⟨-, same⟩
  · exact same
  · exact absurd same other

theorem not_exposed_object (once : (source.actions.filterMap defines?).Nodup) :
    ¬ target.Exposed f.l := by
  rintro ⟨place, call, -, -, joinable, -⟩
  obtain ⟨_, _, _, allocation, -⟩ := joinable.ends
  have before := pairs.get_origin allocation fun same => by cases same
  exact f.origin_ne_place place (eq_of_defines once before pairs.get_place rfl rfl)

theorem readsFrom_origin (other : l ≠ f.l) (reads : (ofMethod target).ReadsFrom l position) :
    (ofMethod source).ReadsFrom l (f.origin position) := by
  induction reads with
  | here read => exact .here (pairs.uses_origin read)
  | @normal position next edge kept _ ih =>
    have keptBefore : ((ofMethod source).action (f.origin position)).defines? ≠ some l :=
      fun same => kept (pairs.defines_origin (lt_length_of_succ edge) same)
    rcases pairs.succ_origin edge with stayed | ⟨rfl, entering⟩
    · exact .normal stayed keptBefore ih
    · rw [origin_of_ge le_rfl] at ih
      refine .normal entering keptBefore (.normal pairs.succ_place ?_ ih)
      rw [pairs.action_place]
      exact fun same => other (Option.some.inj same).symm
  | thrown edge _ ih =>
    exact .thrown (pairs.thrown_origin edge) ih

theorem joinable_origin (other : l ≠ f.l) {place call : Nat}
    (joinable : target.Joinable l place call) :
    source.Joinable l (f.origin place) (f.origin call) where
  before := origin_lt_origin.mpr joinable.before
  ends := by
    obtain ⟨desc, operands, a, allocation, called, calls⟩ := joinable.ends
    refine ⟨desc, operands, a, pairs.get_origin allocation ?_, pairs.get_origin called ?_, calls⟩
    · rintro ⟨⟩
    · rintro rfl
      cases calls
  untouched := by
    intro i a low high here
    by_cases atPlace : i = f.place
    · subst atPlace
      cases here.symm.trans pairs.get_place
      exact ⟨rfl, rfl⟩
    · obtain ⟨p, rfl⟩ := f.exists_origin atPlace
      obtain ⟨b, there⟩ := pairs.exists_target here
      have free := joinable.untouched p b (origin_lt_origin.mp low)
        (origin_lt_origin.mp high) there
      rcases pairs.takes.get_cases there with ⟨-, same⟩ | ⟨rfl, rfl⟩
      · exact Option.some.inj (here.symm.trans same) ▸ free
      · rw [origin_of_ge (Nat.le_add_right _ _), Nat.add_right_comm, pairs.get_call] at here
        cases here
        exact ⟨mentionsLocal_call other free.1, rfl⟩

theorem exposed_source (other : l ≠ f.l) (exposed : target.Exposed l) : source.Exposed l := by
  obtain ⟨place, call, position, handler, joinable, behind, upto, edge, reads⟩ := exposed
  refine ⟨_, _, f.origin position, f.origin handler, pairs.joinable_origin other joinable,
    origin_lt_origin.mpr behind, ?_, pairs.thrown_origin edge,
    pairs.readsFrom_origin other reads⟩
  exact Nat.not_lt.mp fun less => Nat.not_lt.mpr upto (origin_lt_origin.mp less)

end Exposing

theorem wellMade (made : source.WellMade) : target.WellMade := by
  have members : ∀ b ∈ target.actions,
      b ∈ source.actions ∨ b = construction f.l desc method args := by
    intro b member
    obtain ⟨position, found⟩ := mem_iff_getElem?.mp member
    exact (pairs.takes.get_cases found).imp (fun same => mem_of_getElem? same.2) And.right
  refine ⟨pairs.takes.tidyTarget, ?_, ?_, ?_⟩
  · intro b member
    rcases members b member with same | rfl
    · exact made.proper b same
    · exact proper_construction (made.proper _ (mem_of_getElem? pairs.get_call))
  · intro b member
    rcases members b member with same | rfl
    · exact made.bare b same
    · rfl
  · have once := made.once
    rw [pairs.takes.source_eq, pairs.reader] at once
    rw [pairs.takes.target_eq]
    simp only [filterMap_append, filterMap_cons, defines?,
      construction] at once ⊢
    exact (perm_middle.append_left _).nodup_iff.mpr once

end Pairs

/-! ## The search -/

section Search

variable {l : LocalId} {desc : Text} {method : MethodRef} {args : List Expr}

theorem Expr.Proper.eq_read {e : Expr} (proper : e.Proper) (reads : e.local? = some l) :
    e = .read l := by
  cases proper with
  | @leaf head isLeaf =>
    cases head <;> cases reads
    rfl
  | @inner head operands inner =>
    cases head <;> cases reads
    cases inner

theorem constructorCall?_eq_some (proper : a.Proper)
    (found : a.constructorCall? l desc = some (method, args)) :
    a = .void (.node (.invoke .direct method) (.read l :: args)) ∧ ∀ e ∈ args, l ∉ e.uses := by
  unfold constructorCall? at found
  split at found
  next called receiver operands =>
    split at found
    next fits =>
      obtain ⟨-, -, isObject, apart⟩ := fits
      cases found
      have properReceiver : receiver.Proper := by
        cases proper _ mem_cons_self with
        | inner _ operands => exact operands _ mem_cons_self
      obtain rfl := properReceiver.eq_read isObject
      exact ⟨rfl, by simpa using apart⟩
    · cases found
  · cases found

/-- What the search finds: behind statements that do not mention the object and end no block stands
a constructor call on it. -/
theorem findConstructor_eq_some {ids : List StmtId} {call : StmtId} {s : Stmt}
    (found : findConstructor l desc (ids.map fun id => (id, m.stmt id)) = some (call, s)) :
    ∃ between after method args, ids = between ++ call :: after ∧
      (∀ id ∈ between, (m.action id).mentionsLocal l = false ∧ (m.action id).endsBlock = false) ∧
      (m.action call).constructorCall? l desc = some (method, args) ∧
      s.action = construction l desc method args := by
  induction ids with
  | nil => cases found
  | cons id ids ih =>
    rw [map_cons, findConstructor] at found
    split at found
    next method args calls =>
      cases found
      exact ⟨[], ids, method, args, rfl, fun _ none => absurd none not_mem_nil, calls, rfl⟩
    · split at found
      · cases found
      next passes =>
        obtain ⟨between, after, method, args, split, untouched, rest⟩ := ih found
        rw [Bool.or_eq_true, not_or, Bool.not_eq_true, Bool.not_eq_true] at passes
        exact ⟨id :: between, after, method, args, congrArg (id :: ·) split,
          forall_mem_cons.mpr ⟨passes, untouched⟩, rest⟩

theorem body_behind {before after : List StmtId} {id : StmtId}
    (nodup : (before ++ id :: after).Nodup) (split : m.order.toList = before ++ id :: after) :
    (m.body.dropWhile fun (other, _) => other != id).tail =
      after.map fun other => (other, m.stmt other) := by
  have absent : id ∉ before := fun early =>
    (nodup_cons.mp (nodup_middle.mp nodup)).1 (mem_append_left _ early)
  have passed : ∀ entry ∈ before.map fun other => (other, m.stmt other),
      (entry.1 != id) = true := by grind
  rw [Method.body, split, map_append, map_cons, dropWhile_append_of_pos passed,
    dropWhile_cons_of_neg (by simp), tail_cons]

end Search

/-! ## The pass -/

namespace Method.WellMade

variable {m : Method} (made : m.WellMade)

include made

/-- The edits of one step: a new statement in the place of the constructor call, and the allocation
taken out. -/
theorem pairs {before between after : List StmtId} {id call : StmtId} {s : Stmt} {desc : Text}
    {operands args : List Expr} {method : MethodRef}
    (split : m.order.toList = before ++ id :: (between ++ call :: after))
    (allocates : m.action id = .assign l (.node (.new desc) operands))
    (untouched : ∀ id ∈ between,
      (m.action id).mentionsLocal l = false ∧ (m.action id).endsBlock = false)
    (calls : m.action call = .void (.node (.invoke .direct method) (.read l :: args)))
    (found : (m.action call).constructorCall? l desc = some (method, args))
    (unread : ∀ e ∈ args, l ∉ e.uses) (does : s.action = construction l desc method args) :
    Pairs m (((m.newStmt s).2.replace call (m.newStmt s).1).remove id)
      ⟨before.map m.action, l, .node (.new desc) [], between.map m.action, m.action call,
        after.map m.action⟩ desc method args := by
  have old : ∀ other ∈ m.order.toList, (m.newStmt s).2.action other = m.action other :=
    fun other member => action_newStmt_of_lt (made.tidy.made other member) s
  have around : (m.newStmt s).2.order.toList = (before ++ id :: between) ++ call :: after := by
    simpa using split
  have replaced := (made.tidy.newStmt s).replace around
    (fun member => lt_irrefl _ (made.tidy.made (m.newStmt s).1 member)) (by simp)
    (by rw [newStmt_fst, action_newStmt_self, does]; rfl)
  have order : ((m.newStmt s).2.replace call (m.newStmt s).1).order.toList =
      before ++ id :: (between ++ (m.newStmt s).1 :: after) := by
    rw [replaced.order_eq]
    simp
  have linked := replaced.trans (replaced.tidy.remove order)
  have bare : operands = [] := by
    have member : m.action id ∈ m.actions :=
      mem_map_of_mem (split ▸ mem_append_right _ mem_cons_self)
    have isBare := made.bare _ member
    rw [allocates] at isBare
    exact isEmpty_iff.mp isBare
  subst bare
  refine ⟨⟨made.tidy, linked.tidy, ?_, ?_, ?_⟩, linked.traps, linked.locals, rfl, calls, found,
    unread, forall_mem_map.mpr untouched⟩
  · rw [actions, split]
    simp [allocates]
  · have same : ∀ part : List StmtId, (∀ other ∈ part, other ∈ m.order.toList) →
        part.map (m.newStmt s).2.action = part.map m.action := fun part listed =>
      map_congr_left fun other member => old other (listed other member)
    rw [linked.actions_eq, map_append, map_append, map_cons, newStmt_fst,
      action_newStmt_self, does, same before (by simp +contextual [split]),
      same between (by simp +contextual [split]), same after (by simp +contextual [split])]
  · rw [calls]
    exact ⟨rfl, rfl⟩

theorem pairOne_cases (shielded : List LocalId) (id : StmtId) :
    pairOne shielded m id = m ∨ ∃ f desc method args, f.l ∉ shielded ∧
      Pairs m (pairOne shielded m id) f desc method args := by
  unfold pairOne
  split
  next l desc operands allocates =>
    split
    · exact .inl rfl
    next unshielded =>
      dsimp only
      split
      next call s found =>
        have linked : id ∈ m.order.toList := by
          by_contra unlinked
          have passed : ∀ entry ∈ m.body, (entry.1 != id) = true := by
            intro entry member
            obtain ⟨other, listed, rfl⟩ := mem_map.mp member
            exact bne_iff_ne.mpr fun same => unlinked (same ▸ listed)
          rw [dropWhile_eq_nil_iff.mpr passed] at found
          cases found
        obtain ⟨before, behind, split⟩ := append_of_mem linked
        rw [body_behind (split ▸ made.tidy.nodup) split] at found
        obtain ⟨between, after, method, args, rfl, untouched, calls, does⟩ :=
          findConstructor_eq_some found
        have member : m.action call ∈ m.actions :=
          mem_map_of_mem (by simp [split])
        obtain ⟨call_eq, unread⟩ := constructorCall?_eq_some (made.proper _ member) calls
        exact .inr ⟨_, desc, method, args, by simpa using unshielded,
          made.pairs split allocates untouched call_eq calls unread does⟩
      · exact .inl rfl
  · exact .inl rfl

end Method.WellMade

namespace Method

/-- What the steps of the pass keep: a local is assigned where it is read, and not exposed unless it
is shielded. -/
structure Guarded (shielded : List LocalId) (l : LocalId) (m : Method) : Prop where
  made : m.WellMade
  assigned : m.AssignsReads l
  hidden : m.Exposed l → l ∈ shielded

variable {m : Method} {shielded : List LocalId} {l : LocalId}

theorem Guarded.pairOne (guarded : m.Guarded shielded l) (id : StmtId) :
    (pairOne shielded m id).Guarded shielded l := by
  rcases guarded.made.pairOne_cases shielded id with same | ⟨f, desc, method, args, open_, pairs⟩
  · rwa [same]
  · refine ⟨pairs.wellMade guarded.made, pairs.assignsReads guarded.assigned ?_, fun exposed => ?_⟩
    · rintro rfl exposed
      exact open_ (guarded.hidden exposed)
    · by_cases own : l = f.l
      · subst own
        exact absurd exposed (pairs.not_exposed_object guarded.made.once)
      · exact guarded.hidden (pairs.exposed_source own exposed)

theorem Guarded.pairAll (guarded : m.Guarded shielded l) (ids : List StmtId) :
    (ids.foldl (Method.pairOne shielded) m).Guarded shielded l := by
  induction ids generalizing m with
  | nil => exact guarded
  | cons id ids ih => exact ih (guarded.pairOne id)

/-- Joining allocations with their constructor calls leaves a local assigned wherever it can be
read, unless a handler of what happens between the two may read the object outside a join. -/
theorem WellMade.assignsReads_pairConstructors (made : m.WellMade) (assigned : m.AssignsReads l)
    (hidden : m.Exposed l → l ∈ m.seenByHandlers) :
    m.pairConstructors.WellMade ∧ m.pairConstructors.AssignsReads l := by
  have guarded : m.Guarded m.seenByHandlers l := ⟨made, assigned, hidden⟩
  rw [pairConstructors, ← Array.foldl_toList]
  have after := guarded.pairAll m.order.toList
  exact ⟨after.made, after.assigned⟩

/-- An object is made in front of a trap and its constructor runs inside, behind another call; then
the object is passed on, and so is a local in the handler. -/
def attempt (handled : LocalId) : Method :=
  let pass (l : LocalId) : Action :=
    .void (.node (.invoke .static ⟨"La;", "g", ⟨["Ljava/lang/Object;"], "V"⟩⟩) [.read l])
  { owner := "La;", name := "m", desc := "()V", access := ⟨8⟩, params := [], result := "V"
    locals := #[{ type := .refTo "Lb;" }, { type := .refTo "Ljava/lang/Throwable;" }]
    traps := [⟨.number 0, .number 1, .number 2, ∅⟩]
    stmts := #[⟨.assign 0 (.node (.new "Lb;") []), none⟩, ⟨.label (.number 0), none⟩,
      ⟨.void (.node (.invoke .static ⟨"La;", "f", ⟨[], "V"⟩⟩) []), none⟩,
      ⟨.void (.node (.invoke .direct ⟨"Lb;", "<init>", ⟨[], "V"⟩⟩) [.read 0]), none⟩,
      ⟨.label (.number 1), none⟩, ⟨pass 0, none⟩, ⟨.return none, none⟩,
      ⟨.label (.number 2), none⟩, ⟨.identity 1 (.leaf (.caught .object ∅)), none⟩,
      ⟨pass handled, none⟩, ⟨.return none, none⟩]
    order := #[0, 1, 2, 3, 4, 5, 6, 7, 8, 9, 10]
    placed := #[some 1, some 4, some 7] }

/-- A handler that passes on what it caught leaves the object assigned where it is read. -/
theorem assignsReads_attempt : ((attempt 1).Exposed 0 → 0 ∈ (attempt 1).seenByHandlers) ∧
    (attempt 1).pairConstructors.WellMade ∧ (attempt 1).pairConstructors.AssignsReads 0 := by
  have known : ∀ a ∈ (attempt 1).actions, ∀ l ∈ a.uses ++ a.phiArgs.map PhiArg.value,
      l < (attempt 1).locals.size := by decide +kernel
  have solves := Liveness.solves_ofMethod fun a member l read =>
    known a member l ((LocalSet.mem_ofList _ _).mp read)
  have hidden : (attempt 1).Exposed 0 → 0 ∈ (attempt 1).seenByHandlers := fun exposed =>
    absurd exposed (not_exposed solves (by decide +kernel))
  have made : (attempt 1).WellMade := ⟨by decide +kernel, by decide +kernel, by decide +kernel,
    by decide +kernel⟩
  exact ⟨hidden, made.assignsReads_pairConstructors (by decide +kernel) hidden⟩

/-- What is assigned in the attempt, and the ways into its blocks. -/
def attemptNotes : Nat → Note
  | 0 => .entry
  | 1 | 2 | 3 | 4 | 5 | 6 => ⟨[0], [((.nowhere, false), [])]⟩
  | 7 | 8 => ⟨[0], [((.nowhere, true), [0])]⟩
  | _ => ⟨[0, 1], [((.nowhere, true), [0])]⟩

/-- A handler that passes on the object itself reads it unassigned afterwards: no join reads it, and
what is thrown in front of the constructor call reaches the handler without a definition. -/
theorem attempt_unassigned : (attempt 0).InSsa ∧
    (∀ l < (attempt 0).locals.size, (attempt 0).AssignsReads l) ∧
      (attempt 0).seenByHandlers = [] ∧ ¬ (attempt 0).pairConstructors.AssignsReads 0 := by
  have noted : (attempt 0).Noted attemptNotes := by with_unfolding_all decide
  refine ⟨noted.inSsa ?_ ?_ ?_ ?_ ?_, ?_, ?_, ?_⟩ <;> with_unfolding_all decide

end Method

end DexLift.Ir
