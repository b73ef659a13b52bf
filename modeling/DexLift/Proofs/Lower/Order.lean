import DexLift.Proofs.Lower.Plan
import Mathlib.Data.List.Nodup
import Mathlib.Data.List.Perm.Subperm

/-!
# The order in which blocks are followed

The walk over the blocks finishes a block when everything it leads to has been
entered. Read from the last one finished, no block occurs twice, the first one
is the entry, where control can go from a listed block is listed, and every
block but the first has a predecessor in front of it.
-/

namespace DexLift.Lower.Plan

open List

/-- Where control can go from a block. -/
def leavesTo (blocks : Array PlannedBlock) (k : Nat) : List Nat :=
  (blocks.getD k default).succs ++ (blocks.getD k default).exSuccs

def Under (blocks : Array PlannedBlock) (root : Nat) (ks : List Nat) : Prop :=
  ∀ front k back, ks = front ++ k :: back →
    k ∈ leavesTo blocks root ∨ ∃ source ∈ front, k ∈ leavesTo blocks source

variable {blocks : Array PlannedBlock}

theorem Under.append {root child : Nat} {ks inner : List Nat} (later : Under blocks root ks)
    (edge : child ∈ leavesTo blocks root) (first : Under blocks child inner) :
    Under blocks root (ks ++ child :: inner) := by
  intro front k back split
  rcases append_eq_append_iff.mp split with ⟨middle, equal, tail⟩ | ⟨middle, equal, tail⟩
  · -- The block is the child or was walked from it.
    cases middle with
    | nil =>
      cases tail
      exact .inl edge
    | cons other middle =>
      cases tail
      rcases first middle k back rfl with here | ⟨source, member, there⟩
      · exact .inr ⟨child, by simp [equal], here⟩
      · exact .inr ⟨source, by simp [equal, member], there⟩
  · cases middle with
    | nil =>
      cases tail
      exact .inl edge
    | cons other middle =>
      cases tail
      rcases later front k middle equal with here | found
      · exact .inl here
      · exact .inr found

/-- What a walk adds: the blocks `ks`, finished in that order and entered, each with everything it
leads to. -/
structure Adds (blocks : Array PlannedBlock) (before : Walk) (ks : List Nat) (after : Walk) :
    Prop where
  finished : after.finished = ks ++ before.finished
  entered : after.entered.Perm (ks ++ before.entered)
  nodup : after.entered.Nodup
  inside : ∀ k ∈ after.entered, k < blocks.size
  closed : ∀ k ∈ ks, ∀ t ∈ leavesTo blocks k, t ∈ after.entered

/-- A walk may go on. -/
structure Ready (blocks : Array PlannedBlock) (fuel : Nat) (state : Walk) : Prop where
  nodup : state.entered.Nodup
  inside : ∀ k ∈ state.entered, k < blocks.size
  enough : blocks.size ≤ fuel + state.entered.length

theorem length_le_size {ks : List Nat} (nodup : ks.Nodup) (inside : ∀ k ∈ ks, k < blocks.size) :
    ks.length ≤ blocks.size := by
  have sub : ks ⊆ range blocks.size := fun k member => mem_range.mpr (inside k member)
  simpa using (nodup.subperm sub).length_le

theorem Adds.trans {before middle after : Walk} {inner ks : List Nat}
    (first : Adds blocks before ks middle) (second : Adds blocks middle inner after) :
    Adds blocks before (inner ++ ks) after := by
  refine ⟨by rw [second.finished, first.finished, append_assoc], ?_, second.nodup,
    second.inside, ?_⟩
  · rw [append_assoc]
    exact second.entered.trans (first.entered.append_left inner)
  · intro k member t target
    rcases mem_append.mp member with new | old
    · exact second.closed k new t target
    · exact second.entered.mem_iff.mpr
        (mem_append_right _ (first.closed k old t target))

theorem Ready.adds {fuel : Nat} {before after : Walk} {ks : List Nat}
    (ready : Ready blocks fuel before) (adds : Adds blocks before ks after) :
    Ready blocks fuel after := by
  refine ⟨adds.nodup, adds.inside, ?_⟩
  have length := adds.entered.length_eq
  have enough := ready.enough
  rw [length_append] at length
  omega

/-- Walking over several successors of a root, given that walking from each of them works. -/
theorem walk_children {fuel : Nat}
    (walks : ∀ k state, k < blocks.size → k ∉ state.entered → Ready blocks fuel state →
      ∃ ks, Adds blocks state (k :: ks) (walk blocks fuel k state) ∧ Under blocks k ks)
    {root : Nat} (children : List Nat) (edges : ∀ k ∈ children, k ∈ leavesTo blocks root)
    (inside : ∀ k ∈ children, k < blocks.size) (state : Walk) (ready : Ready blocks fuel state) :
    ∃ ks, Adds blocks state ks (children.foldl (fun state k =>
        if state.entered.contains k then state else walk blocks fuel k state) state) ∧
      Under blocks root ks ∧
      ∀ k ∈ children, k ∈ (children.foldl (fun state k =>
        if state.entered.contains k then state else walk blocks fuel k state) state).entered := by
  induction children generalizing state with
  | nil =>
    refine ⟨[], ⟨rfl, .refl _, ready.nodup, ready.inside, by simp⟩, ?_, by simp⟩
    intro front k back split
    simp at split
  | cons first rest ih =>
    have edgesRest : ∀ k ∈ rest, k ∈ leavesTo blocks root :=
      fun k member => edges k (.tail _ member)
    have insideRest : ∀ k ∈ rest, k < blocks.size :=
      fun k member => inside k (.tail _ member)
    rw [foldl_cons]
    by_cases known : first ∈ state.entered
    · rw [if_pos (by simpa using known)]
      obtain ⟨ks, adds, under, members⟩ := ih edgesRest insideRest state ready
      refine ⟨ks, adds, under, ?_⟩
      intro k member
      rcases mem_cons.mp member with rfl | later
      · exact adds.entered.mem_iff.mpr (mem_append_right _ known)
      · exact members k later
    · rw [if_neg (by simpa using known)]
      obtain ⟨inner, walked, innerUnder⟩ := walks first state (inside first (by simp)) known ready
      obtain ⟨ks, adds, under, members⟩ :=
        ih edgesRest insideRest _ (ready.adds walked)
      refine ⟨ks ++ first :: inner, walked.trans adds, ?_, ?_⟩
      · exact under.append (edges first (by simp)) innerUnder
      · intro k member
        rcases mem_cons.mp member with rfl | later
        · exact adds.entered.mem_iff.mpr
            (mem_append_right _ (walked.entered.mem_iff.mpr (by simp)))
        · exact members k later

theorem walk_adds (closed : ∀ k < blocks.size, ∀ t ∈ leavesTo blocks k, t < blocks.size)
    (fuel k : Nat) (state : Walk) (inside : k < blocks.size) (new : k ∉ state.entered)
    (ready : Ready blocks fuel state) :
    ∃ ks, Adds blocks state (k :: ks) (walk blocks fuel k state) ∧ Under blocks k ks := by
  induction fuel generalizing k state with
  | zero =>
    -- Without fuel all blocks were entered, this one too.
    have bounded := length_le_size (nodup_cons.mpr ⟨new, ready.nodup⟩) (by
      intro other member
      rcases mem_cons.mp member with rfl | old
      · exact inside
      · exact ready.inside other old)
    have enough := ready.enough
    rw [length_cons] at bounded
    omega
  | succ fuel ih =>
    have entering : Ready blocks fuel { state with entered := k :: state.entered } := by
      refine ⟨nodup_cons.mpr ⟨new, ready.nodup⟩, ?_, ?_⟩
      · intro other member
        rcases mem_cons.mp member with rfl | old
        · exact inside
        · exact ready.inside other old
      · have enough := ready.enough
        rw [length_cons]
        omega
    obtain ⟨ks, adds, under, members⟩ := walk_children ih (leavesTo blocks k)
      (fun _ => id) (closed k inside) { state with entered := k :: state.entered } entering
    refine ⟨ks, ⟨?_, ?_, adds.nodup, adds.inside, ?_⟩, under⟩
    · rw [cons_append, ← adds.finished]
      rfl
    · exact adds.entered.trans perm_middle
    · intro other member t target
      rcases mem_cons.mp member with rfl | old
      · exact members t target
      · exact adds.closed other old t target

/-- What is known about the order in which blocks are followed. -/
structure Ordered (blocks : Array PlannedBlock) (order : List Nat) : Prop where
  nodup : order.Nodup
  inside : ∀ k ∈ order, k < blocks.size
  first : ∃ rest, order = 0 :: rest
  closed : ∀ k ∈ order, ∀ t ∈ leavesTo blocks k, t ∈ order
  earlier : ∀ front k back, order = front ++ k :: back → k ≠ 0 →
    ∃ source ∈ front, k ∈ leavesTo blocks source

theorem ordered_reversePostorder (nonempty : 0 < blocks.size)
    (closed : ∀ k < blocks.size, ∀ t ∈ leavesTo blocks k, t < blocks.size) :
    Ordered blocks (reversePostorder blocks) := by
  obtain ⟨ks, adds, under⟩ := walk_adds closed blocks.size 0 {} nonempty (by simp)
    ⟨nodup_nil, by simp, by simp⟩
  have order : reversePostorder blocks = 0 :: ks := by
    rw [reversePostorder, adds.finished, append_nil]
  have entered : ∀ k, k ∈ (walk blocks blocks.size 0 {}).entered ↔ k ∈ 0 :: ks := by
    intro k
    rw [adds.entered.mem_iff, append_nil]
  have nodup : (0 :: ks).Nodup := by
    have perm := adds.entered
    rw [append_nil] at perm
    exact perm.nodup_iff.mp adds.nodup
  rw [order]
  refine ⟨nodup, ?_, ⟨ks, rfl⟩, ?_, ?_⟩
  · intro k member
    exact adds.inside k ((entered k).mpr member)
  · intro k member t target
    exact (entered t).mp (adds.closed k member t target)
  · intro front k back split other
    cases front with
    | nil =>
      cases split
      exact absurd rfl other
    | cons root front =>
      cases split
      rcases under front k back rfl with here | ⟨source, member, there⟩
      · exact ⟨0, by simp, here⟩
      · exact ⟨source, .tail _ member, there⟩

/-! ## The end of the code -/

theorem Ordered.induct {order : List Nat} (ordered : Ordered blocks order) {holds : Nat → Prop}
    (first : holds 0)
    (step : ∀ k ∈ order, holds k → ∀ t ∈ leavesTo blocks k, holds t) : ∀ k ∈ order, holds k := by
  have early : ∀ count front k back, front.length = count → order = front ++ k :: back →
      holds k := by
    intro count
    induction count using Nat.strongRecOn with
    | ind count ih =>
      intro front k back length split
      by_cases zero : k = 0
      · rwa [zero]
      · obtain ⟨source, member, edge⟩ := ordered.earlier front k back split zero
        obtain ⟨before, after, parts⟩ := append_of_mem member
        have shorter : before.length < count := by
          rw [← length, parts]
          simp
        have here := ih before.length shorter before source (after ++ k :: back)
          rfl (by rw [split, parts]; simp)
        exact step source (by rw [split]; exact mem_append_left _ member) here k edge
  intro k member
  obtain ⟨front, back, split⟩ := append_of_mem member
  exact early front.length front k back rfl split

variable {s : Source}

theorem Sound.closed (sound : Sound s blocks) :
    ∀ k < blocks.size, ∀ t ∈ leavesTo blocks k, t < blocks.size :=
  fun _ inside _ target => sound.mem_lt inside (mem_append.mp target)

theorem Sound.reached_initial (sound : Sound s blocks) (nonempty : 0 < s.starts.length) :
    ∀ k ∈ reversePostorder blocks, if k < s.starts.length then
      k ∈ reversePostorder (initialBlocks s)
    else ∀ h, (blocks.getD k default).leadsTo = some h → h ∈ reversePostorder (initialBlocks s) := by
  have size : (initialBlocks s).size = s.starts.length := by simp [initialBlocks]
  have initially := ordered_reversePostorder (by rwa [size])
    fun k _ => initialBlocks_closed nonempty k
  have ordered := ordered_reversePostorder (Nat.lt_of_lt_of_le nonempty sound.count) sound.closed
  have same : ∀ k < s.starts.length, (initialBlocks s).getD k default = initial s k := by
    intro k inside
    simp [initialBlocks, inside]
  refine ordered.induct ?_ ?_
  · obtain ⟨rest, order⟩ := initially.first
    rw [if_pos nonempty, order]
    exact mem_cons_self
  · intro k member here t edge
    by_cases instructions : k < s.starts.length
    · rw [if_pos instructions] at here
      have closed := initially.closed k here
      simp only [leavesTo, same k instructions] at closed
      rw [leavesTo, sound.succs k instructions, sound.thrown k instructions] at edge
      rcases mem_append.mp edge with normal | thrown
      · rw [if_pos (normalSuccs_lt nonempty normal)]
        exact closed t (mem_append_left _ normal)
      · obtain ⟨h, handler, rfl⟩ := mem_map.mp thrown
        have target := closed h (mem_append_right _ handler)
        have inside := thrownSuccs_lt nonempty handler
        rcases landing_cases blocks h with ⟨lands, -⟩ | ⟨bound, leads, -⟩
        · rwa [lands, if_pos inside]
        · have late : ¬ landing blocks h < s.starts.length := by
            intro early
            rw [sound.leadsTo _ early] at leads
            cases leads
          rw [if_neg late]
          intro other same
          cases leads.symm.trans same
          exact target
    · rw [if_neg instructions] at here
      obtain ⟨h, inside, leads, succs, none⟩ :=
        sound.front k (ordered.inside k member) (Nat.le_of_not_lt instructions)
      rw [leavesTo, succs, none, append_nil] at edge
      rw [mem_singleton.mp edge, if_pos inside]
      exact here h leads

theorem Made.ends {base m : Ir.Method} {code : Dex.Code} {p : Plan}
    (made : Made base code m p) {k : Nat} (reached : k ∈ reversePostorder p.blocks)
    (last : k + 1 = p.source.starts.length) :
    (p.source.at_ (p.source.stopOf k - 1)).op.flow.continues = false := by
  have nonempty := made.starts ▸ made.nonempty
  have initially := made.sound.reached_initial nonempty k reached
  rw [if_pos (by omega)] at initially
  exact made.stays k initially (by rwa [made.starts])

end DexLift.Lower.Plan
