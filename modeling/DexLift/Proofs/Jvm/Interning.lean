import DexLift.Proofs.Jvm.Room
import Mathlib.Data.List.Forall2

/-!
# Interning

A pool answers equal requests with one index and different requests with
different ones, and what stands at an index stays there. The reason is that the
table of indices is the exact inverse of the entries: every request that finds
room keeps it so, also one whose parts are asked for on the way. An entry refers
only to entries in front of it, and the index behind a long or a double is never
given out.
-/

namespace DexLift.Jvm

open List UInt16

/-! ## Exact pools -/

/-- What an entry refers to stands in front of it and is of the kind it must be. Kinds of entries
that nobody asks for do not occur. -/
def Constant.Linked (p : Pool) (i : UInt16) : Constant → Prop
  | .unused | .utf8 _ | .integer _ | .float _ | .long _ | .double _ => True
  | .class text | .string text => text < i ∧ ∃ t, p.Has text (.utf8 t)
  | .nameAndType name type =>
    (name < i ∧ ∃ t, p.Has name (.utf8 t)) ∧ type < i ∧ ∃ t, p.Has type (.utf8 t)
  | .fieldRef owner member | .methodRef owner member | .interfaceMethodRef owner member =>
    (owner < i ∧ ∃ name, p.Has owner (.class name)) ∧
      member < i ∧ ∃ name type, p.Has member (.nameAndType name type)
  | .methodHandle .. | .methodType _ | .invokeDynamic .. => False

namespace Pool

variable {i : UInt16} {c : Constant} {p : Pool} {text name : Text}

/-- The table of indices is the inverse of the entries, references lead back to entries of the right
kind, and a long or a double has an empty entry behind it. -/
structure Exact (p : Pool) : Prop where
  index_iff : ∀ c i, p.index[c]? = some i ↔ p.Has i c ∧ c ≠ .unused
  bounded : p.entries.size ≤ capacity
  linked : ∀ i c, p.Has i c → c.Linked p i
  gap : ∀ i c, p.Has i c → c.isWide = true → p.entries[i.toNat + 1]? = some .unused

theorem has_empty (here : Has {} i c) : c = .unused := by
  have inside : i.toNat < 1 := (Array.getElem?_eq_some_iff.mp here).1
  have first : i.toNat = 0 := by omega
  rw [Has, first] at here
  exact (Option.some.inj here).symm

theorem exact_empty : Exact {} := by
  refine ⟨?_, by decide, ?_, ?_⟩
  · intro c i
    constructor
    · intro found
      simp at found
    · rintro ⟨here, some_⟩
      exact absurd (has_empty here) some_
  · intro i c here
    cases has_empty here
    trivial
  · intro i c here wide
    cases has_empty here
    cases wide

theorem Has.lt (here : p.Has i c) : i.toNat < p.entries.size :=
  (Array.getElem?_eq_some_iff.mp here).1

theorem Has.eq {d : Constant} (first : p.Has i c) (second : p.Has i d) : c = d :=
  Option.some.inj (Eq.trans (Eq.symm first) second)

theorem Has.entry_eq (here : p.Has i c) : p.entry i = c := by
  rw [entry, Array.getD_eq_getD_getElem?, show p.entries[i.toNat]? = some c from here]
  rfl

theorem Exact.unique (exact : p.Exact) {j : UInt16} (first : p.Has i c) (second : p.Has j c)
    (some_ : c ≠ .unused) : i = j :=
  Option.some.inj (((exact.index_iff c i).mpr ⟨first, some_⟩).symm.trans
    ((exact.index_iff c j).mpr ⟨second, some_⟩))

theorem Exact.sound (exact : p.Exact) (fine : p.failure = none) : p.Sound := by
  refine ⟨fun c i found => ((exact.index_iff c i).mp found).1, exact.bounded, ?_⟩
  intro f told
  rw [fine] at told
  cases told

theorem Grows.linked {q : Pool} (grows : p.Grows q) (linked : c.Linked p i) : c.Linked q i := by
  have keepsText : ∀ {a : UInt16}, (a < i ∧ ∃ t, p.Has a (.utf8 t)) →
      a < i ∧ ∃ t, q.Has a (.utf8 t) :=
    fun ⟨before, t, here⟩ => ⟨before, t, grows.keeps _ _ here⟩
  have keepsMember : ∀ {a b : UInt16}, ((a < i ∧ ∃ name, p.Has a (.class name)) ∧
      b < i ∧ ∃ name type, p.Has b (.nameAndType name type)) →
      (a < i ∧ ∃ name, q.Has a (.class name)) ∧ b < i ∧ ∃ name type, q.Has b (.nameAndType name type) :=
    fun ⟨⟨before, name, here⟩, beforeToo, t, type, there⟩ =>
      ⟨⟨before, name, grows.keeps _ _ here⟩, beforeToo, t, type, grows.keeps _ _ there⟩
  cases c with
  | unused | utf8 | integer | float | long | double => trivial
  | «class» | string => exact keepsText linked
  | nameAndType => exact ⟨keepsText linked.1, keepsText linked.2⟩
  | fieldRef | methodRef | interfaceMethodRef => exact keepsMember linked
  | methodHandle | methodType | invokeDynamic => exact linked

/-! ## Asking for one constant -/

theorem toNat_next (room : p.entries.size < capacity) :
    (ofNat p.entries.size).toNat = p.entries.size := by
  rw [toNat_ofNat']
  exact Nat.mod_eq_of_lt room

theorem Has.lt_next (here : p.Has i c) (room : p.entries.size < capacity) :
    i < ofNat p.entries.size := by
  rw [lt_iff_toNat_lt, toNat_next room]
  exact here.lt

theorem has_push_iff {d : Constant} (some_ : d ≠ .unused) (room : p.entries.size < capacity) :
    (p.push c).Has i d ↔ p.Has i d ∨ i = ofNat p.entries.size ∧ c = d := by
  have next : i = ofNat p.entries.size ↔ i.toNat = p.entries.size := by
    rw [← UInt16.toNat_inj, toNat_next room]
  rw [next]
  rcases Nat.lt_trichotomy i.toNat p.entries.size with old | same | behind
  · rw [Has, getElem?_push_of_lt old, Has]
    constructor
    · exact .inl
    · rintro (here | ⟨same, -⟩)
      · exact here
      · omega
  · have absent : ¬ p.Has i d := fun here => absurd here.lt (by omega)
    rw [Has, same, getElem?_push]
    simp [absent]
  · have absent : ¬ p.Has i d := fun here => absurd here.lt (by omega)
    have different : i.toNat ≠ p.entries.size := by omega
    simp only [absent, different, false_and, or_false, iff_false]
    intro here
    unfold Has push at here
    split at here
    · rw [Array.getElem?_push, Array.size_push] at here
      split at here
      · exact some_ (Option.some.inj here).symm
      · rw [Array.getElem?_push, if_neg different, Array.getElem?_eq_none (by omega)] at here
        cases here
    · rw [Array.getElem?_push, if_neg different, Array.getElem?_eq_none (by omega)] at here
      cases here

theorem Exact.push (exact : p.Exact) (proper : c.isProper = true) (new : p.index[c]? = none)
    (fits : p.entries.size + (if c.isWide then 2 else 1) ≤ capacity)
    (linked : c.Linked p (ofNat p.entries.size)) : (p.push c).Exact := by
  have room : p.entries.size < capacity := by
    have : 1 ≤ if c.isWide then 2 else 1 := by split <;> decide
    omega
  have some_ : c ≠ .unused := by
    rintro rfl
    cases proper
  have grows : p.Grows (p.push c) := grows_push proper fits
  have outside : ∀ {i : UInt16} {d : Constant}, d ≠ .unused → (p.push c).Has i d →
      p.Has i d ∨ i = ofNat p.entries.size ∧ c = d :=
    fun other => (has_push_iff other room).mp
  refine ⟨?_, by rwa [size_push], ?_, ?_⟩
  · intro d i
    have index : (p.push c).index[d]? =
        if c = d ∧ ¬c ∈ p.index then some (ofNat p.entries.size) else p.index[d]? := by
      simp [Pool.push, Std.HashMap.getElem?_insertIfNew]
    have absent : ¬ c ∈ p.index := by
      rw [Std.HashMap.mem_iff_isSome_getElem?, new]
      exact Bool.false_ne_true
    rw [index]
    by_cases same : c = d
    · subst same
      have nowhere : ∀ j, ¬ p.Has j c := fun j here => by
        have found := (exact.index_iff c j).mpr ⟨here, some_⟩
        rw [new] at found
        cases found
      rw [if_pos ⟨rfl, absent⟩, has_push_iff some_ room]
      simp only [nowhere, false_or, and_true, some_, ne_eq, not_false_eq_true, Option.some.injEq]
      exact eq_comm
    · rw [if_neg fun both => same both.1, exact.index_iff]
      constructor
      · rintro ⟨here, other⟩
        exact ⟨grows.keeps _ _ here, other⟩
      · rintro ⟨here, other⟩
        rcases outside other here with old | ⟨-, isNew⟩
        · exact ⟨old, other⟩
        · exact absurd isNew same
  · intro i d here
    by_cases empty : d = .unused
    · subst empty
      trivial
    · rcases outside empty here with old | ⟨rfl, rfl⟩
      · exact grows.linked (exact.linked i d old)
      · exact grows.linked linked
  · intro i d here wide
    have other : d ≠ .unused := by
      rintro rfl
      cases wide
    rcases outside other here with old | ⟨rfl, rfl⟩
    · have behind := exact.gap i d old wide
      rwa [getElem?_push_of_lt (Array.getElem?_eq_some_iff.mp behind).1]
    · rw [toNat_next room]
      simp only [Pool.push, wide, if_true]
      rw [← Array.size_push c, Array.getElem?_push, if_pos rfl]

theorem Exact.intern (exact : p.Exact) (proper : c.isProper = true)
    (linked : p.entries.size < capacity → c.Linked p (ofNat p.entries.size))
    (fine : ((Pool.intern c).run p).2.failure = none) : ((Pool.intern c).run p).2.Exact := by
  simp only [Pool.intern, StateT.run, modifyGet, MonadStateOf.modifyGet, StateT.modifyGet] at fine ⊢
  cases known : p.index[c]? with
  | some i => exact exact
  | none =>
    by_cases full : p.entries.size + (if c.isWide then 2 else 1) > capacity
    · simp only [known, full, if_true] at fine
      exact absurd fine (fail_ne_none p _ _)
    · simp only [full, if_false]
      have room : p.entries.size < capacity := by
        have : 1 ≤ if c.isWide then 2 else 1 := by split <;> decide
        omega
      exact exact.push proper known (Nat.le_of_not_gt full) (linked room)

/-! ## Asking for a constant and its parts -/

theorem run_twoThenLast {α β γ : Type} (first : Intern α) (second : Intern β)
    (last : α → β → Intern γ) (p : Pool) :
    (do
      let a ← first
      last a (← second)).run p =
      (last (first.run p).1 (second.run (first.run p).2).1).run (second.run (first.run p).2).2 := rfl

section Parts

variable {p : Pool} (exact : p.Exact)

include exact

theorem Exact.utf8 (fine : ((Pool.utf8 text).run p).2.failure = none) :
    ((Pool.utf8 text).run p).2.Exact := by
  unfold Pool.utf8 at fine ⊢
  split at fine
  · exact absurd fine (fail_ne_none p _ _)
  next short =>
    rw [if_neg short]
    refine exact.intern ?_ (fun _ => trivial) fine
    rwa [Constant.isProper, Bool.not_eq_true', ← Bool.not_eq_true]

theorem Exact.reference {kind : UInt16 → Constant} (proper : ∀ a, (kind a).isProper = true)
    (linked : ∀ q a i, (kind a).Linked q i = (a < i ∧ ∃ t, q.Has a (.utf8 t)))
    (fine : ((do Pool.intern (kind (← Pool.utf8 text)) : Intern UInt16).run p).2.failure = none) :
    ((do Pool.intern (kind (← Pool.utf8 text)) : Intern UInt16).run p).2.Exact := by
  have fineText := (adds_intern (kind ((Pool.utf8 text).run p).1) (proper _) _).fine fine
  have here := has_utf8 (exact.sound ((adds_utf8 text p).fine fineText)) fineText
  refine (exact.utf8 fineText).intern (proper _) (fun room => ?_) fine
  rw [linked]
  exact ⟨here.lt_next room, text, here⟩

theorem Exact.class_ (fine : ((Pool.class_ name).run p).2.failure = none) :
    ((Pool.class_ name).run p).2.Exact :=
  exact.reference (fun _ => rfl) (fun _ _ _ => rfl) fine

theorem Exact.string (fine : ((Pool.string text).run p).2.failure = none) :
    ((Pool.string text).run p).2.Exact :=
  exact.reference (fun _ => rfl) (fun _ _ _ => rfl) fine

theorem Exact.nameAndType {type : Text}
    (fine : ((Pool.nameAndType name type).run p).2.failure = none) :
    ((Pool.nameAndType name type).run p).2.Exact := by
  let afterName := ((Pool.utf8 name).run p).2
  let afterType := ((Pool.utf8 type).run afterName).2
  have growsType : afterName.Grows afterType := adds_utf8 type afterName
  have growsLast : afterType.Grows ((Pool.nameAndType name type).run p).2 := adds_intern _ rfl _
  have fineType := growsLast.fine fine
  have fineName := growsType.fine fineType
  have exactName := exact.utf8 fineName
  have isName := growsType.keeps _ _
    (has_utf8 (exact.sound ((adds_utf8 name p).fine fineName)) fineName)
  have isType := has_utf8 (exactName.sound fineName) fineType
  refine (exactName.utf8 fineType).intern rfl (fun room => ?_) fine
  exact ⟨⟨isName.lt_next room, name, isName⟩, isType.lt_next room, type, isType⟩

theorem Exact.member {kind : UInt16 → UInt16 → Constant} {owner type : Text}
    (proper : ∀ a b, (kind a b).isProper = true)
    (linked : ∀ q a b i, (kind a b).Linked q i = ((a < i ∧ ∃ name, q.Has a (.class name)) ∧
      b < i ∧ ∃ name type, q.Has b (.nameAndType name type)))
    {reference : Intern UInt16}
    (asks : reference = do
      let owner ← Pool.class_ owner
      Pool.intern (kind owner (← Pool.nameAndType name type)))
    (fine : (reference.run p).2.failure = none) : (reference.run p).2.Exact := by
  let afterOwner := ((Pool.class_ owner).run p).2
  let afterPair := ((Pool.nameAndType name type).run afterOwner).2
  have last : reference.run p = (Pool.intern (kind ((Pool.class_ owner).run p).1
      ((Pool.nameAndType name type).run afterOwner).1)).run afterPair := by
    rw [asks]
    exact run_twoThenLast (Pool.class_ owner) (Pool.nameAndType name type) _ p
  rw [last] at fine ⊢
  have growsPair : afterOwner.Grows afterPair := adds_nameAndType name type afterOwner
  have growsLast := adds_intern (kind ((Pool.class_ owner).run p).1
    ((Pool.nameAndType name type).run afterOwner).1) (proper _ _) afterPair
  have finePair := growsLast.fine fine
  have fineOwner := growsPair.fine finePair
  have exactOwner := exact.class_ fineOwner
  obtain ⟨ownerName, isOwner, -⟩ :=
    isClass_class (exact.sound ((adds_class owner p).fine fineOwner)) fineOwner
  replace isOwner := growsPair.keeps _ _ isOwner
  obtain ⟨nameText, typeText, isPair, -⟩ :=
    isPair_nameAndType (exactOwner.sound fineOwner) finePair
  refine (exactOwner.nameAndType finePair).intern (proper _ _) (fun room => ?_) fine
  rw [linked]
  exact ⟨⟨isOwner.lt_next room, ownerName, isOwner⟩, isPair.lt_next room, nameText, typeText, isPair⟩

end Parts

/-! ## Requests -/

/-- A constant that is asked for, by what it stands for. -/
inductive Request where
  | utf8 (text : Text)
  | class (name : Text)
  | string (text : Text)
  | integer (n : Int32)
  | float (bits : UInt32)
  | long (bits : UInt64)
  | double (bits : UInt64)
  | nameAndType (name type : Text)
  | fieldRef (owner name type : Text)
  | methodRef (owner name type : Text)
  | interfaceMethodRef (owner name type : Text)
deriving DecidableEq

variable {r : Request} {requests : List Request}

namespace Request

def ask : Request → Intern UInt16
  | utf8 text => Pool.utf8 text
  | .class name => Pool.class_ name
  | string text => Pool.string text
  | integer n => Pool.integer n
  | float bits => Pool.float bits
  | long bits => Pool.long bits
  | double bits => Pool.double bits
  | nameAndType name type => Pool.nameAndType name type
  | fieldRef owner name type => Pool.fieldRef owner name type
  | methodRef owner name type => Pool.methodRef owner name type
  | interfaceMethodRef owner name type => Pool.interfaceMethodRef owner name type

/-- Asks a pool for one constant after another. -/
def askAll (requests : List Request) : Intern (List UInt16) := requests.mapM ask

/-- Whether the constant takes two indices. -/
def isWide : Request → Bool
  | long _ | double _ => true
  | _ => false

/-- What was asked for stands at an index, and what it refers to has the texts asked for. -/
def Stands (p : Pool) (i : UInt16) : Request → Prop
  | utf8 text => p.Has i (.utf8 text)
  | .class name => p.IsClass i name
  | string text => p.IsString i text
  | integer n => p.Has i (.integer n.toUInt32)
  | float bits => p.Has i (.float bits)
  | long bits => p.Has i (.long bits)
  | double bits => p.Has i (.double bits)
  | nameAndType name type => p.IsPair i name type
  | fieldRef owner name type => p.IsMember .fieldRef i owner name type
  | methodRef owner name type => p.IsMember .methodRef i owner name type
  | interfaceMethodRef owner name type => p.IsMember .interfaceMethodRef i owner name type

theorem adds_ask (r : Request) : Intern.Adds r.ask := by
  cases r with
  | utf8 => exact adds_utf8 _
  | «class» => exact adds_class _
  | string => exact adds_string _
  | integer | float | long | double => exact adds_intern _ rfl
  | nameAndType => exact adds_nameAndType _ _
  | fieldRef => exact adds_fieldRef _ _ _
  | methodRef => exact adds_methodRef _ _ _
  | interfaceMethodRef => exact adds_interfaceMethodRef _ _ _

theorem exact_ask (exact : p.Exact) (r : Request) (fine : (r.ask.run p).2.failure = none) :
    (r.ask.run p).2.Exact := by
  cases r with
  | utf8 => exact exact.utf8 fine
  | «class» => exact exact.class_ fine
  | string => exact exact.string fine
  | integer | float | long | double => exact exact.intern rfl (fun _ => trivial) fine
  | nameAndType => exact exact.nameAndType fine
  | fieldRef | methodRef | interfaceMethodRef =>
    exact exact.member (fun _ _ => rfl) (fun _ _ _ _ => rfl) rfl fine

theorem stands_ask (sound : p.Sound) (r : Request) (fine : (r.ask.run p).2.failure = none) :
    r.Stands (r.ask.run p).2 (r.ask.run p).1 := by
  cases r with
  | utf8 => exact has_utf8 sound fine
  | «class» => exact isClass_class sound fine
  | string => exact isString_string sound fine
  | integer | float | long | double => exact has_intern sound fine
  | nameAndType => exact isPair_nameAndType sound fine
  | fieldRef | methodRef | interfaceMethodRef =>
    exact isMember_intern sound (fun _ _ => rfl) rfl fine

theorem Stands.grow {q : Pool} (grows : p.Grows q) (stands : r.Stands p i) : r.Stands q i := by
  cases r with
  | utf8 | integer | float | long | double => exact grows.keeps _ _ stands
  | «class» => exact IsClass.grow grows stands
  | string => exact IsString.grow grows stands
  | nameAndType => exact IsPair.grow grows stands
  | fieldRef | methodRef | interfaceMethodRef => exact IsMember.grow grows stands

/-! ## One index for one request -/

def pairAt (p : Pool) (i : UInt16) : Text × Text :=
  match p.entry i with
  | .nameAndType name type => (p.text name, p.text type)
  | _ => (∅, ∅)

def at? (p : Pool) (i : UInt16) : Option Request :=
  match p.entry i with
  | .utf8 text => some (.utf8 text)
  | .class name => some (.class (p.text name))
  | .string text => some (.string (p.text text))
  | .integer bits => some (.integer bits.toInt32)
  | .float bits => some (.float bits)
  | .long bits => some (.long bits)
  | .double bits => some (.double bits)
  | .nameAndType name type => some (.nameAndType (p.text name) (p.text type))
  | .fieldRef owner member =>
    some (.fieldRef (p.className owner) (pairAt p member).1 (pairAt p member).2)
  | .methodRef owner member =>
    some (.methodRef (p.className owner) (pairAt p member).1 (pairAt p member).2)
  | .interfaceMethodRef owner member =>
    some (.interfaceMethodRef (p.className owner) (pairAt p member).1 (pairAt p member).2)
  | _ => none

theorem Stands.at?_eq (stands : r.Stands p i) : at? p i = some r := by
  have text : ∀ {a : UInt16} {t : Text}, p.Has a (.utf8 t) → p.text a = t :=
    fun here => by rw [Pool.text, here.entry_eq]
  have pair : ∀ {a : UInt16} {name type : Text}, p.IsPair a name type → pairAt p a = (name, type) := by
    rintro a name type ⟨nameText, typeText, here, isName, isType⟩
    simp only [pairAt, here.entry_eq, text isName, text isType]
  have owner : ∀ {a : UInt16} {name : Text}, p.IsClass a name → p.className a = name := by
    rintro a name ⟨nameText, here, isName⟩
    simp only [className, here.entry_eq, text isName]
  cases r with
  | utf8 | integer | float | long | double => simp only [at?, Has.entry_eq stands, Int32.toInt32_toUInt32]
  | «class» | string =>
    obtain ⟨a, here, isText⟩ := stands
    simp only [at?, here.entry_eq, text isText]
  | nameAndType =>
    obtain ⟨a, b, here, isName, isType⟩ := stands
    simp only [at?, here.entry_eq, text isName, text isType]
  | fieldRef | methodRef | interfaceMethodRef =>
    obtain ⟨a, b, here, isOwner, isPair⟩ := stands
    simp only [at?, here.entry_eq, owner isOwner, pair isPair]

theorem Stands.eq {s : Request} (first : r.Stands p i) (second : s.Stands p i) : r = s :=
  Option.some.inj (first.at?_eq.symm.trans second.at?_eq)

theorem Stands.unique (exact : p.Exact) {j : UInt16} (first : r.Stands p i) (second : r.Stands p j) :
    i = j := by
  have text : ∀ {a b : UInt16} {t : Text}, p.Has a (.utf8 t) → p.Has b (.utf8 t) → a = b :=
    fun here there => exact.unique here there nofun
  have owner : ∀ {a b : UInt16} {name : Text}, p.IsClass a name → p.IsClass b name → a = b := by
    rintro a b name ⟨x, here, isName⟩ ⟨y, there, isNameToo⟩
    cases text isName isNameToo
    exact exact.unique here there nofun
  have pair : ∀ {a b : UInt16} {name type : Text}, p.IsPair a name type → p.IsPair b name type →
      a = b := by
    rintro a b name type ⟨x, y, here, isName, isType⟩ ⟨z, w, there, isNameToo, isTypeToo⟩
    cases text isName isNameToo
    cases text isType isTypeToo
    exact exact.unique here there nofun
  have member : ∀ {a b : UInt16} {kind : UInt16 → UInt16 → Constant} {o name type : Text},
      p.IsMember kind a o name type → p.IsMember kind b o name type →
      (∀ x y, kind x y ≠ .unused) → a = b := by
    rintro a b kind o name type ⟨x, y, here, isOwner, isPair⟩ ⟨z, w, there, isOwnerToo, isPairToo⟩ some_
    cases owner isOwner isOwnerToo
    cases pair isPair isPairToo
    exact exact.unique here there (some_ _ _)
  cases r with
  | utf8 | integer | float | long | double => exact exact.unique first second nofun
  | «class» => exact owner first second
  | string =>
    obtain ⟨x, here, isText⟩ := first
    obtain ⟨y, there, isTextToo⟩ := second
    cases text isText isTextToo
    exact exact.unique here there nofun
  | nameAndType => exact pair first second
  | fieldRef | methodRef | interfaceMethodRef => exact member first second fun _ _ => nofun

theorem Stands.exists_has (stands : r.Stands p i) :
    ∃ c, p.Has i c ∧ c ≠ .unused ∧ c.isWide = r.isWide := by
  cases r with
  | utf8 | integer | float | long | double => exact ⟨_, stands, nofun, rfl⟩
  | «class» | string =>
    obtain ⟨a, here, -⟩ := stands
    exact ⟨_, here, nofun, rfl⟩
  | nameAndType | fieldRef | methodRef | interfaceMethodRef =>
    obtain ⟨a, b, here, -⟩ := stands
    exact ⟨_, here, nofun, rfl⟩

/-! ## Many requests -/

theorem adds_askAll (requests : List Request) : Intern.Adds (askAll requests) :=
  .mapM adds_ask requests

theorem askAll_spec (requests : List Request) (exact : p.Exact)
    (fine : ((askAll requests).run p).2.failure = none) :
    ((askAll requests).run p).2.Exact ∧
      Forall₂ (fun r i => r.Stands ((askAll requests).run p).2 i) requests
        ((askAll requests).run p).1 := by
  induction requests generalizing p with
  | nil => exact ⟨exact, .nil⟩
  | cons r rest ih =>
    let middle := (r.ask.run p).2
    have run : (askAll (r :: rest)).run p =
        ((r.ask.run p).1 :: ((askAll rest).run middle).1, ((askAll rest).run middle).2) := by
      rw [askAll, mapM_cons]
      rfl
    rw [run] at fine ⊢
    have grows : middle.Grows ((askAll rest).run middle).2 := adds_askAll rest middle
    have fineMiddle : middle.failure = none := grows.fine fine
    have sound := exact.sound ((adds_ask r p).fine fineMiddle)
    obtain ⟨exactLast, each⟩ := ih (exact_ask exact r fineMiddle) fine
    exact ⟨exactLast, .cons ((stands_ask sound r fineMiddle).grow grows) each⟩

def texts : Request → List Text
  | utf8 text | .class text | string text => [text]
  | integer _ | float _ | long _ | double _ => []
  | nameAndType name type => [name, type]
  | fieldRef owner name type | methodRef owner name type | interfaceMethodRef owner name type =>
    [owner, name, type]

/-- The most entries that a request takes. -/
def room : Request → Nat
  | utf8 _ | integer _ | float _ => 1
  | .class _ | string _ | long _ | double _ => 2
  | nameAndType .. => 3
  | fieldRef .. | methodRef .. | interfaceMethodRef .. => 6

theorem takes_ask (r : Request) (short : ∀ text ∈ r.texts, isTooLong text = false) :
    Intern.Takes r.room r.ask := by
  cases r with
  | utf8 => exact takes_utf8 (short _ (.head _))
  | «class» => exact takes_class (short _ (.head _))
  | string => exact takes_string (short _ (.head _))
  | integer n => exact takes_intern (.integer n.toUInt32)
  | float bits => exact takes_intern (.float bits)
  | long bits => exact takes_intern (.long bits)
  | double bits => exact takes_intern (.double bits)
  | nameAndType => exact takes_nameAndType (short _ (.head _)) (short _ (.tail _ (.head _)))
  | fieldRef | methodRef | interfaceMethodRef =>
    exact takes_member (short _ (.head _)) (short _ (.tail _ (.head _)))
      (short _ (.tail _ (.tail _ (.head _)))) (fun _ _ => rfl) rfl

theorem takes_askAll (short : ∀ r ∈ requests, ∀ text ∈ r.texts, isTooLong text = false) :
    Intern.Takes (requests.map room).sum (askAll requests) :=
  .mapM fun r member => takes_ask r (short r member)

/-- A pool has answered requests: what was asked for stands at each index and nothing else does,
the index behind a long or a double is empty and was not given out, and references lead back. -/
structure Interned (requests : List Request) (answers : List UInt16) (p : Pool) : Prop where
  each : Forall₂ (fun r i => r.Stands p i) requests answers
  same_iff : ∀ first ∈ requests.zip answers, ∀ second ∈ requests.zip answers,
    first.2 = second.2 ↔ first.1 = second.1
  gap : ∀ pair ∈ requests.zip answers, pair.1.isWide = true →
    p.entries[pair.2.toNat + 1]? = some .unused ∧ ∀ i ∈ answers, i.toNat ≠ pair.2.toNat + 1
  linked : ∀ i c, p.Has i c → c.Linked p i

theorem interned_of_stands {answers : List UInt16} (exact : p.Exact)
    (each : List.Forall₂ (fun r i => r.Stands p i) requests answers) :
    Interned requests answers p := by
  have stands : ∀ pair ∈ requests.zip answers, pair.1.Stands p pair.2 :=
    fun pair member => (List.forall₂_iff_zip.mp each).2 member
  refine ⟨each, ?_, ?_, exact.linked⟩
  · intro first member second memberToo
    have here := stands first member
    have there := stands second memberToo
    constructor
    · intro same
      rw [same] at here
      exact here.eq there
    · intro same
      rw [same] at here
      exact here.unique exact there
  · intro pair member wide
    obtain ⟨c, here, -, sameWidth⟩ := (stands pair member).exists_has
    have empty := exact.gap _ c here (sameWidth.trans wide)
    refine ⟨empty, ?_⟩
    intro i given behind
    obtain ⟨k, atAnswer⟩ := mem_iff_getElem?.mp given
    have inside : k < requests.length := by
      rw [each.length_eq]
      exact (List.getElem?_eq_some_iff.mp atAnswer).1
    obtain ⟨r, atRequest⟩ : ∃ r, requests[k]? = some r := ⟨_, getElem?_eq_getElem inside⟩
    have listed : (r, i) ∈ requests.zip answers :=
      mem_iff_getElem?.mpr ⟨k, getElem?_zip_eq_some.mpr ⟨atRequest, atAnswer⟩⟩
    obtain ⟨d, there, some_, -⟩ := (stands _ listed).exists_has
    rw [Has, behind, empty] at there
    exact some_ (Option.some.inj there).symm

theorem askAll_append (first later : List Request) (p : Pool) :
    (askAll (first ++ later)).run p =
      (((askAll first).run p).1 ++ ((askAll later).run ((askAll first).run p).2).1,
        ((askAll later).run ((askAll first).run p).2).2) := by
  rw [askAll, mapM_append]
  rfl

/-- A new pool interns all that it is asked for, and what it has interned stays so when it is asked
for more, as long as there is no failure. -/
theorem askAll_interns (first later : List Request)
    (fine : ((askAll (first ++ later)).run {}).2.failure = none) :
    ∃ answers p more q, (askAll first).run {} = (answers, p) ∧ (askAll later).run p = (more, q) ∧
      (askAll (first ++ later)).run {} = (answers ++ more, q) ∧
      Interned first answers p ∧ Interned (first ++ later) (answers ++ more) q ∧
      ∀ i c, p.Has i c → q.Has i c := by
  have run := askAll_append first later {}
  have grows := adds_askAll later ((askAll first).run {}).2
  have all := askAll_spec (first ++ later) exact_empty fine
  rw [run] at fine all
  have early := askAll_spec first exact_empty (grows.fine fine)
  exact ⟨_, _, _, _, rfl, rfl, run, interned_of_stands early.1 early.2,
    interned_of_stands all.1 all.2, grows.keeps⟩

/-- A method is asked for and then, among other things, asked for again. -/
theorem askAll_interns_constructor :
    let constructor := Request.methodRef "java/lang/Object" "<init>" "()V"
    let later := [.long 0x10000000000, .integer 7, constructor]
    ((askAll ([constructor] ++ later)).run {}).2.failure = none ∧
      ∃ answers p more q, (askAll [constructor]).run {} = (answers, p) ∧
        (askAll later).run p = (more, q) ∧
        (askAll ([constructor] ++ later)).run {} = (answers ++ more, q) ∧
        Interned [constructor] answers p ∧ Interned ([constructor] ++ later) (answers ++ more) q ∧
        ∀ i c, p.Has i c → q.Has i c := by
  intro constructor later
  have short : ∀ r ∈ [constructor] ++ later, ∀ text ∈ r.texts, isTooLong text = false := by decide
  have fine := (takes_askAll short {} rfl (by decide)).1
  exact ⟨fine, askAll_interns [constructor] later fine⟩

end Request

end Pool

end DexLift.Jvm
