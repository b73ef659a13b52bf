import DexLift.Ir.Expr
import Mathlib.Data.List.Nodup
import Mathlib.Data.List.Perm.Subperm
import Mathlib.Data.Nat.Find
import Mathlib.Logic.Function.Basic

/-!
# Values that spread in rounds

Some locals have a given value, others the least one above those of several locals, and
the rest keep what they have. The values are found in rounds: each round goes over the
locals once and takes what is there at the time. Whatever feeds a local comes to it
along a path that passes each local once at most. Therefore all values have arrived
after as many rounds as there are locals, and nothing changes any more.
-/

namespace DexLift.Ir

open List

/-- Where the value of a local comes from: it is given, or the least one above those of others. -/
inductive Origin (V : Type) where
  | given (v : V)
  | joined (sources : List LocalId)

abbrev Rule (V : Type) := LocalId × Origin V

namespace Rule

variable {x : LocalId} {n : Nat}

variable {V : Type} {le : V → V → Prop}

inductive Step (le : V → V → Prop) : Rule V → (LocalId → V) → (LocalId → V) → Prop where
  | given {x : LocalId} {v : V} (values : LocalId → V) :
      Step le (x, .given v) values (Function.update values x v)
  | joined {x : LocalId} {sources : List LocalId} {values : LocalId → V} {v : V}
      (least : ∀ c, le v c ↔ ∀ y ∈ sources, le (values y) c) :
      Step le (x, .joined sources) values (Function.update values x v)

/-- Locals take their values one after the other. -/
inductive Round (le : V → V → Prop) : List (Rule V) → (LocalId → V) → (LocalId → V) → Prop where
  | nil (values : LocalId → V) : Round le [] values values
  | cons {rule : Rule V} {rest : List (Rule V)} {first second third : LocalId → V}
      (step : Step le rule first second) (later : Round le rest second third) :
      Round le (rule :: rest) first third

/-- A value that comes to a local in some number of steps. What is not assigned keeps the value it
has in the beginning. -/
inductive Feeds (rules : List (Rule V)) (start : LocalId → V) : Nat → LocalId → V → Prop where
  | kept {x : LocalId} (free : x ∉ rules.map Prod.fst) : Feeds rules start 0 x (start x)
  | given {x : LocalId} {v : V} (rule : (x, .given v) ∈ rules) : Feeds rules start 1 x v
  | joined {n : Nat} {x y : LocalId} {sources : List LocalId} {v : V}
      (rule : (x, .joined sources) ∈ rules) (source : y ∈ sources)
      (feeds : Feeds rules start n y v) : Feeds rules start (n + 1) x v

variable {rules rest : List (Rule V)} {start values after : LocalId → V}

/-- A local is above everything that comes to it in at most `n` steps. -/
def Filled (le : V → V → Prop) (rules : List (Rule V)) (start : LocalId → V) (n : Nat)
    (values : LocalId → V) (x : LocalId) : Prop :=
  ∀ m v, Feeds rules start m x v → m ≤ n → le v (values x)

/-- Locals are not above anything but what comes to them. -/
def Bounded (le : V → V → Prop) (rules : List (Rule V)) (start values : LocalId → V) : Prop :=
  ∀ x c, (∀ n v, Feeds rules start n x v → le v c) → le (values x) c

/-! ## One round -/

variable {rule : Rule V}

theorem Step.other {rule : Rule V} (step : Step le rule values after) (other : x ≠ rule.1) :
    after x = values x := by
  cases step <;> exact Function.update_of_ne other _ _

theorem Round.kept (round : Round le rest values after) {x : LocalId}
    (free : x ∉ rest.map Prod.fst) : after x = values x := by
  induction round with
  | nil => rfl
  | cons step _ ih =>
    rw [map_cons, mem_cons, not_or] at free
    rw [ih free.2, step.other free.1]

section

variable (bounded : Bounded le rules start values)

include bounded

/-- Values that are taken are not above anything but what comes there. -/
theorem Bounded.step {rule : Rule V} (listed : rule ∈ rules) (step : Step le rule values after) :
    Bounded le rules start after := by
  intro x c above
  by_cases same : x = rule.1
  · cases step with
    | given =>
      subst same
      rw [Function.update_self]
      exact above 1 _ (.given listed)
    | joined least =>
      subst same
      rw [Function.update_self]
      exact (least c).mpr fun y source => bounded y c fun n v feeds =>
        above (n + 1) v (.joined listed source feeds)
  · rw [step.other same]
    exact bounded x c above

theorem Bounded.round (within : rest ⊆ rules)
    (round : Round le rest values after) : Bounded le rules start after := by
  induction round with
  | nil => exact bounded
  | cons step _ ih =>
    obtain ⟨listed, within⟩ := cons_subset.mp within
    exact ih (bounded.step listed step) within

/-- What is above nothing but what comes there stays so with more rules, when the locals that get one
have a value below all others or the one that is given to them. -/
theorem Bounded.widen {wider : List (Rule V)}
    (within : rules ⊆ wider) (kept : ∀ x ∉ rules.map Prod.fst, values x = start x)
    (own : ∀ x ∈ wider.map Prod.fst, (∀ c, le (start x) c) ∨ (x, .given (start x)) ∈ wider) :
    Bounded le wider values values := by
  intro x c above
  refine bounded x c fun n v feeds => ?_
  induction feeds with
  | @kept x free =>
    by_cases ruled : x ∈ wider.map Prod.fst
    · rcases own x ruled with least | given
      · exact least c
      · exact above 1 _ (.given given)
    · rw [← kept x free]
      exact above 0 _ (.kept ruled)
  | given rule => exact above 1 _ (.given (within rule))
  | joined rule source _ ih =>
    exact ih fun n v feeds => above (n + 1) v (.joined (within rule) source feeds)

end

section Order

variable (refl : ∀ v, le v v) (trans : ∀ {a b c}, le a b → le b c → le a c)
  (distinct : (rules.map Prod.fst).Nodup)

include refl trans distinct

theorem Step.filled (listed : rule ∈ rules) (filled : ∀ x, Filled le rules start n values x)
    (step : Step le rule values after) : Filled le rules start (n + 1) after rule.1 := by
  intro m v feeds near
  obtain ⟨x, origin⟩ := rule
  cases feeds with
  | kept free => exact absurd (mem_map_of_mem listed) free
  | given other =>
    cases inj_on_of_nodup_map distinct other listed rfl
    cases step
    rw [Function.update_self]
    exact refl v
  | joined other source feeds =>
    cases inj_on_of_nodup_map distinct other listed rfl
    cases step with
    | joined least =>
      rw [Function.update_self]
      have above := (least _).mp (refl _) _ source
      exact trans (filled _ _ v feeds (Nat.le_of_succ_le_succ near)) above

theorem Round.filled (within : rest ⊆ rules) (once : (rest.map Prod.fst).Nodup)
    (filled : ∀ x, Filled le rules start n values x)
    (done : ∀ x ∉ rest.map Prod.fst, Filled le rules start (n + 1) values x)
    (round : Round le rest values after) (x : LocalId) : Filled le rules start (n + 1) after x := by
  induction round with
  | nil => exact done x not_mem_nil
  | @cons rule rest first second third step _ ih =>
    obtain ⟨listed, within⟩ := cons_subset.mp within
    obtain ⟨fresh, once⟩ := nodup_cons.mp once
    have here : Filled le rules start (n + 1) second rule.1 :=
      step.filled refl trans distinct listed filled
    refine ih within once (fun y => ?_) fun y free => ?_
    · intro m v feeds near
      by_cases same : y = rule.1
      · subst same
        exact here m v feeds (Nat.le_succ_of_le near)
      · rw [step.other same]
        exact filled y m v feeds near
    · by_cases same : y = rule.1
      · exact same ▸ here
      · intro m v feeds near
        rw [step.other same]
        refine done y ?_ m v feeds near
        rw [map_cons, mem_cons, not_or]
        exact ⟨same, free⟩

theorem Round.filled_all (filled : ∀ x, Filled le rules start n values x)
    (same : ∀ x ∉ rules.map Prod.fst, values x = start x) (round : Round le rules values after)
    (x : LocalId) : Filled le rules start (n + 1) after x := by
  refine round.filled refl trans distinct (Subset.refl rules) distinct filled ?_ x
  intro y free m v feeds _
  cases feeds with
  | kept => rw [same y free]; exact refl _
  | given rule | joined rule => exact absurd (mem_map_of_mem rule) free

end Order

/-! ## How far values come -/

/-- A value comes to a local in `n` steps and not in fewer. -/
def Nearest (rules : List (Rule V)) (start : LocalId → V) (n : Nat) (x : LocalId) (v : V) : Prop :=
  Feeds rules start n x v ∧ ∀ m, Feeds rules start m x v → n ≤ m

variable {v : V}

theorem Nearest.exists_path (nearest : Nearest rules start n x v) :
    ∃ path : List LocalId, path.length = n ∧ path.Nodup ∧ path ⊆ rules.map Prod.fst ∧
      ∀ y ∈ path, ∃ m ≤ n, Nearest rules start m y v := by
  obtain ⟨feeds, least⟩ := nearest
  induction feeds with
  | kept => exact ⟨[], rfl, .nil, nil_subset _, nofun⟩
  | @given x v rule =>
    refine ⟨[x], rfl, nodup_singleton x, ?_, ?_⟩
    · exact cons_subset.mpr ⟨mem_map_of_mem rule, nil_subset _⟩
    · exact forall_mem_singleton.mpr ⟨1, Nat.le_refl 1, .given rule, least⟩
  | @joined n x y sources v rule source feeds ih =>
    have shortest : ∀ m, Feeds rules start m y v → n ≤ m := fun m other =>
      Nat.le_of_succ_le_succ (least (m + 1) (.joined rule source other))
    obtain ⟨path, length, distinct, within, near⟩ := ih shortest
    refine ⟨x :: path, congrArg (· + 1) length, nodup_cons.mpr ⟨fun member => ?_, distinct⟩,
      cons_subset.mpr ⟨mem_map_of_mem rule, within⟩,
      forall_mem_cons.mpr ⟨⟨n + 1, le_rfl, .joined rule source feeds, least⟩, ?_⟩⟩
    · obtain ⟨m, close, nearest⟩ := near x member
      have far := least m nearest.1
      omega
    · intro z member
      obtain ⟨m, close, nearest⟩ := near z member
      exact ⟨m, Nat.le_succ_of_le close, nearest⟩

theorem Feeds.exists_le (feeds : Feeds rules start n x v) :
    ∃ m ≤ rules.length, Feeds rules start m x v := by
  classical
  have some_ : ∃ m, Feeds rules start m x v := ⟨n, feeds⟩
  obtain ⟨path, length, distinct, within, -⟩ := Nearest.exists_path
    (show Nearest rules start (Nat.find some_) x v from
      ⟨Nat.find_spec some_, fun m other => Nat.find_min' some_ other⟩)
  refine ⟨Nat.find some_, ?_, Nat.find_spec some_⟩
  have few := (subperm_of_subset distinct within).length_le
  rwa [length, length_map] at few

/-! ## After all rounds -/

theorem Filled.above (filled : Filled le rules start rules.length values x)
    (feeds : Feeds rules start n x v) : le v (values x) := by
  obtain ⟨m, few, feeds⟩ := feeds.exists_le
  exact filled m v feeds few

theorem Round.eq_of_filled (refl : ∀ v, le v v) (trans : ∀ {a b c}, le a b → le b c → le a c)
    (antisymm : ∀ {a b}, le a b → le b a → a = b) (distinct : (rules.map Prod.fst).Nodup)
    (bounded : Bounded le rules start values)
    (filled : ∀ x, Filled le rules start rules.length values x)
    (same : ∀ x ∉ rules.map Prod.fst, values x = start x) (round : Round le rules values after) :
    after = values := by
  have boundedAfter := bounded.round (Subset.refl rules) round
  have filledAfter : ∀ x, Filled le rules start rules.length after x := fun x m v feeds few =>
    round.filled_all refl trans distinct filled same x m v feeds (Nat.le_succ_of_le few)
  funext x
  refine antisymm (boundedAfter x _ fun n v feeds => (filled x).above feeds) ?_
  exact bounded x _ fun n v feeds => (filledAfter x).above feeds

end Rule

end DexLift.Ir
