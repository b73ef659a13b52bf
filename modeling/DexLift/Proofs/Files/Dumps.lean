import DexLift.Proofs.Files.Entries
import Mathlib.Data.List.Forall2

/-!
# Files of bodies and drawings

Bodies of methods and drawings of their blocks are written below a folder, under a path
that has the name of the class as it stands and, as the last part, the name and type of
the method with unusual bytes made underscores. The parts of the name of the class are not
checked. The path stays below every folder exactly when none of these parts leads above
it; and methods share a path exactly when the parts lead to the same place and their names
and types differ in nothing but unusual bytes.
-/

namespace DexLift

open List DexLift.Path

namespace Path

variable {rooted : Bool} {folder file part : Text}
  {place next down inner way parts first second : List Text}

/-! ## Walking down from a folder -/

/-- Goes from a place below a folder, given with the last part first, to one of its parts; not above
the folder. -/
def descend? (place : List Text) (part : Text) : Option (List Text) :=
  if part.isEmpty || part == here then some place
  else if part == above then
    match place with
    | [] => none
    | _ :: outer => some outer
  else some (part :: place)

/-- The place below a folder that some parts lead to; none when they lead above it on the way. -/
def inside? (parts : List Text) : Option (List Text) := parts.foldlM descend? []

theorem descend?_of_isName (name : IsName part) : descend? place part = some (part :: place) := by
  have solid : part.isEmpty = false :=
    isEmpty_eq_false_iff.mpr fun none => name.1 (Text.ext none)
  simp [descend?, solid, name.2.1, name.2.2.1]

section

variable (rooted : Bool) (place : List Text) (names : ∀ part ∈ down, IsName part)

include names

theorem step_of_descend? (whole : slash ∉ part.bytes) (goes : descend? down part = some next) :
    step rooted (down ++ place) part = next ++ place ∧ ∀ part ∈ next, IsName part := by
  unfold descend? at goes
  unfold step
  split at goes
  next stays =>
    cases goes
    rw [if_pos stays]
    exact ⟨rfl, names⟩
  next moves =>
  rw [if_neg moves]
  split at goes
  next up =>
    rw [if_pos up]
    cases down with
    | nil => cases goes
    | cons last outer =>
      cases goes
      obtain ⟨name, names⟩ := forall_mem_cons.mp names
      exact ⟨if_neg fun same => name.2.2.1 (beq_iff_eq.mp same), names⟩
  next down =>
    cases goes
    rw [if_neg down]
    simp only [Bool.or_eq_true, not_or, beq_iff_eq] at moves down
    have name : IsName part := ⟨fun none => moves.1 (none ▸ rfl), moves.2, down, whole⟩
    exact ⟨rfl, forall_mem_cons.mpr ⟨name, names⟩⟩

theorem foldl_step_of_descend? (whole : ∀ part ∈ parts, slash ∉ part.bytes)
    (found : parts.foldlM descend? down = some inner) :
    parts.foldl (step rooted) (down ++ place) = inner ++ place ∧ ∀ part ∈ inner, IsName part := by
  induction parts generalizing down with
  | nil =>
    cases found
    exact ⟨rfl, names⟩
  | cons part rest ih =>
    obtain ⟨first, others⟩ := forall_mem_cons.mp whole
    rw [foldlM_cons] at found
    obtain ⟨next, goes, found⟩ := Option.bind_eq_some_iff.mp found
    obtain ⟨stepped, names⟩ := step_of_descend? rooted place names first goes
    rw [foldl_cons, stepped]
    exact ih names others found

end

/-- A step adds nothing but the part and the way up. -/
theorem mem_step (member : part ∈ step rooted place file) :
    part ∈ place ∨ part = above ∨ part = file := by
  unfold step at member
  split at member
  · exact .inl member
  split at member
  · split at member
    · split at member
      · cases member
      · exact .inr (.inl (mem_singleton.mp member))
    · split at member
      · exact (mem_cons.mp member).elim (fun up => .inr (.inl up)) .inl
      · exact .inl (.tail _ member)
  · exact (mem_cons.mp member).elim (fun same => .inr (.inr same)) .inl

theorem mem_foldl_step (member : part ∈ parts.foldl (step rooted) place) :
    part ∈ place ∨ part = above ∨ part ∈ parts := by
  induction parts generalizing place with
  | nil => exact .inl member
  | cons next rest ih =>
    rcases ih member with here | up | later
    · rcases mem_step here with before | up | rfl
      · exact .inl before
      · exact .inr (.inl up)
      · exact .inr (.inr mem_cons_self)
    · exact .inr (.inl up)
    · exact .inr (.inr (.tail _ later))

theorem mem_foldl_step_of_climbs (names : ∀ part ∈ down, IsName part) (name : IsName folder)
    (whole : ∀ part ∈ parts, slash ∉ part.bytes) (climbs : parts.foldlM descend? down = none)
    (member : part ∈ parts.foldl (step false) (down ++ [folder])) :
    part = above ∨ part ∈ down ∨ part ∈ parts := by
  induction parts generalizing down with
  | nil => cases climbs
  | cons first rest ih =>
    obtain ⟨solid, others⟩ := forall_mem_cons.mp whole
    rw [foldlM_cons] at climbs
    rw [foldl_cons] at member
    cases goes : descend? down first with
    | some next =>
      rw [goes] at climbs
      obtain ⟨stepped, named⟩ := step_of_descend? false [folder] names solid goes
      rw [stepped] at member
      rcases ih named others climbs member with up | inner | later
      · exact .inl up
      · have added := (step_of_descend? false [] names solid goes).1
        rw [append_nil, append_nil] at added
        rw [← added] at inner
        rcases mem_step inner with before | up | rfl
        · exact .inr (.inl before)
        · exact .inl up
        · exact .inr (.inr mem_cons_self)
      · exact .inr (.inr (.tail _ later))
    | none =>
      unfold descend? at goes
      split at goes
      · cases goes
      next moves =>
      split at goes
      next up =>
        cases down with
        | cons => cases goes
        | nil =>
          have other : ¬ (folder == above) = true := fun same => name.2.2.1 (beq_iff_eq.mp same)
          have gone : step false ([] ++ [folder]) first = [] := by
            unfold step
            rw [if_neg moves, if_pos up]
            exact if_neg other
          rw [gone] at member
          rcases mem_foldl_step member with none | up | later
          · cases none
          · exact .inl up
          · exact .inr (.inr (.tail _ later))
      · cases goes

/-! ## Paths that go on from a folder -/

/-- The path that some parts lead to from a folder, in its shortest form. -/
def along (folder : Text) (way : List Text) : Text :=
  render (isRooted folder) (way.foldl (step (isRooted folder)) (places folder).reverse).reverse

/-- A path goes on from a folder down through names, at least one. -/
def IsBelow (folder path : Text) : Prop :=
  ∃ down, down ≠ [] ∧ (∀ part ∈ down, IsName part) ∧ path = under (clean folder) down

theorem parts_join_cons (first : Text) (others : List Text) :
    Path.parts (Text.join "/" (first :: others)) = (first :: others).flatMap Path.parts := by
  induction others generalizing first with
  | nil => exact (append_nil _).symm
  | cons next others ih =>
    rw [Text.join_cons_cons, parts_append, ih, flatMap_cons (x := first)]

theorem isRooted_join (some : folder ≠ ∅) (others : List Text) :
    isRooted (Text.join "/" (folder :: others)) = isRooted folder := by
  cases others with
  | nil => rfl
  | cons next others => rw [Text.join_cons_cons, isRooted_append some]

theorem foldl_step_filter (names : List Text) :
    ((names.filter fun path => !path.isEmpty).flatMap Path.parts).foldl (step rooted) place =
      (names.flatMap Path.parts).foldl (step rooted) place := by
  induction names generalizing place with
  | nil => rfl
  | cons name names ih =>
    by_cases some : (!name.isEmpty) = true
    · rw [filter_cons_of_pos (p := fun path : Text => !path.isEmpty) some, flatMap_cons,
        flatMap_cons, foldl_append, foldl_append, ih]
    · have none : name = ∅ := by
        rw [Bool.not_eq_true', Bool.not_eq_false] at some
        exact Text.ext (isEmpty_iff.mp some)
      rw [filter_cons_of_neg (p := fun path : Text => !path.isEmpty) some, ih, flatMap_cons,
        foldl_append, none]
      rfl

theorem join_eq_along (some : folder ≠ ∅) (names : List Text) :
    join (folder :: names) = along folder (names.flatMap Path.parts) := by
  have held : (!folder.isEmpty) = true := by
    rw [Bool.not_eq_true']
    exact isEmpty_eq_false_iff.mpr fun empty => some (Text.ext empty)
  have kept : join (folder :: names) =
      clean (Text.join "/" (folder :: names.filter fun path => !path.isEmpty)) := by
    unfold join
    rw [filter_cons_of_pos (p := fun path : Text => !path.isEmpty) held]
    rfl
  rw [kept, clean_eq, isRooted_join some, places, isRooted_join some, parts_join_cons, flatMap_cons,
    foldl_append, foldl_step_filter, along, places, reverse_reverse]

theorem render_injective (proper : ∀ part ∈ first, part = above ∨ IsName part)
    (properToo : ∀ part ∈ second, part = above ∨ IsName part)
    (same : render rooted first = render rooted second) : first = second := by
  have nothing : render rooted [] = here ∨ render rooted [] = "/" := by
    cases rooted
    · exact .inl rfl
    · exact .inr (Text.ext (append_nil _))
  by_cases none : first = []
  · by_cases noneToo : second = []
    · rw [none, noneToo]
    · have other : render rooted second ≠ here ∧ render rooted second ≠ "/" :=
        render_ne noneToo properToo
      rw [← same, none] at other
      exact absurd nothing (not_or.mpr other)
  · by_cases noneToo : second = []
    · have other : render rooted first ≠ here ∧ render rooted first ≠ "/" := render_ne none proper
      rw [same, noneToo] at other
      exact absurd nothing (not_or.mpr other)
    · rw [render_of_some none (solid_of_proper proper),
        render_of_some noneToo (solid_of_proper properToo)] at same
      have parts := congrArg parts same
      have apart := Files.parts_join none (Files.slash_not_mem_of_proper proper)
      have apartToo := Files.parts_join noneToo (Files.slash_not_mem_of_proper properToo)
      cases rooted with
      | false =>
        rwa [if_neg Bool.false_ne_true, if_neg Bool.false_ne_true, apart, apartToo] at parts
      | true =>
        have root : ∀ path : Text, Path.parts ("/" ++ path) = ∅ :: Path.parts path :=
          fun path => parts_append ∅ path
        rw [if_pos rfl, if_pos rfl, root, root, apart, apartToo] at parts
        exact (cons.inj parts).2

/-! ### What stays below every folder -/

theorem places_of_isName (name : IsName folder) :
    isRooted folder = false ∧ places folder = [folder] := by
  have single := parts_of_not_mem name.2.2.2
  have plain : (parts folder).all Files.isPlainPart = true := by
    have solid : folder.isEmpty = false :=
      isEmpty_eq_false_iff.mpr fun none => name.1 (Text.ext none)
    simp [single, Files.isPlainPart, solid, name.2.2.1]
  refine ⟨not_isRooted plain, ?_⟩
  have goes := (step_of_descend? (isRooted folder) [] (forall_mem_nil _) name.2.2.2
    (descend?_of_isName name)).1
  rw [places, single, foldl_cons, foldl_nil]
  exact congrArg reverse goes

theorem proper_foldl_step (whole : ∀ part ∈ way, slash ∉ part.bytes) (folder : Text) :
    ∀ part ∈ (way.foldl (step rooted) (places folder).reverse).reverse,
      part = above ∨ IsName part :=
  fun part member => isName_of_mem_foldl_step
    (fun other listed => isName_of_mem_places other (mem_reverse.mp listed)) whole part
    (mem_reverse.mp member)

section Below

variable (whole : ∀ part ∈ way, slash ∉ part.bytes) (last : IsName file)

include whole last

theorem along_of_inside? (found : inside? way = some inner) (folder : Text) :
    along folder (way ++ [file]) =
        render (isRooted folder) (places folder ++ (inner.reverse ++ [file])) ∧
      ∀ part ∈ inner.reverse ++ [file], IsName part := by
  obtain ⟨walked, names⟩ := foldl_step_of_descend? (isRooted folder) (places folder).reverse
    (forall_mem_nil _) whole found
  refine ⟨?_, forall_mem_append.mpr ⟨fun part member => names part (mem_reverse.mp member),
    forall_mem_singleton.mpr last⟩⟩
  have added := (step_of_descend? (isRooted folder) (places folder).reverse names last.2.2.2
    (descend?_of_isName last)).1
  rw [nil_append] at walked
  rw [along, foldl_append, walked, foldl_cons, foldl_nil, added, cons_append, reverse_cons,
    reverse_append, reverse_reverse, append_assoc]

theorem isBelow_along (found : inside? way = some inner) (folder : Text) :
    IsBelow folder (along folder (way ++ [file])) := by
  obtain ⟨path, names⟩ := along_of_inside? whole last found folder
  refine ⟨inner.reverse ++ [file], append_ne_nil_of_right_ne_nil _ (cons_ne_nil _ _), names, ?_⟩
  rw [path, clean_eq, under_render isName_of_mem_places names]

theorem not_isBelow_along (climbs : inside? way = none) (name : IsName folder)
    (absent : folder ∉ way) (other : folder ≠ file) :
    ¬ IsBelow folder (along folder (way ++ [file])) := by
  rintro ⟨down, -, names, same⟩
  obtain ⟨relative, placed⟩ := places_of_isName name
  have all : ∀ part ∈ way ++ [file], slash ∉ part.bytes :=
    forall_mem_append.mpr ⟨whole, forall_mem_singleton.mpr last.2.2.2⟩
  rw [clean_eq, under_render isName_of_mem_places names, along] at same
  have walked := render_injective (proper_foldl_step all folder)
    (forall_mem_append.mpr ⟨isName_of_mem_places, fun part member => .inr (names part member)⟩) same
  rw [relative, placed, foldl_append, foldl_cons, foldl_nil, reverse_singleton,
    singleton_append] at walked
  have kept : folder ∈ (step false (way.foldl (step false) [folder]) file).reverse := by
    rw [walked]
    exact mem_cons_self
  rcases mem_step (mem_reverse.mp kept) with before | up | here
  · rcases mem_foldl_step_of_climbs (forall_mem_nil _) name whole climbs before with
      up | none | listed
    · exact name.2.2.1 up
    · cases none
    · exact absent listed
  · exact name.2.2.1 up
  · exact other here

theorem along_eq_iff {way' inner' : List Text} {file' : Text}
    (whole' : ∀ part ∈ way', slash ∉ part.bytes) (last' : IsName file')
    (found : inside? way = some inner) (found' : inside? way' = some inner') (folder : Text) :
    along folder (way ++ [file]) = along folder (way' ++ [file']) ↔
      inner = inner' ∧ file = file' := by
  obtain ⟨path, names⟩ := along_of_inside? whole last found folder
  obtain ⟨path', names'⟩ := along_of_inside? whole' last' found' folder
  have proper : ∀ {down : List Text}, (∀ part ∈ down, IsName part) →
      ∀ part ∈ places folder ++ down, part = above ∨ IsName part := fun names =>
    forall_mem_append.mpr ⟨isName_of_mem_places, fun part member => .inr (names part member)⟩
  rw [path, path']
  constructor
  · intro same
    have both := append_cancel_left (render_injective (proper names) (proper names') same)
    obtain ⟨inners, files⟩ := append_inj' both rfl
    exact ⟨reverse_injective inners, (cons.inj files).1⟩
  · rintro ⟨rfl, rfl⟩
    rfl

end Below

/-! ### A name that does not occur -/

theorem length_le_of_mem_splitBytes {separator : UInt8} {bytes piece : List UInt8}
    (member : piece ∈ Text.splitBytes separator bytes) : piece.length ≤ bytes.length := by
  induction bytes generalizing piece with
  | nil => exact Nat.le_of_eq (congrArg length (mem_singleton.mp member))
  | cons b rest ih =>
    rw [Text.splitBytes] at member
    cases pieces : Text.splitBytes separator rest with
    | nil => exact absurd pieces (Text.splitBytes_ne_nil _ _)
    | cons first others =>
      rw [pieces] at member ih
      dsimp only at member
      split at member
      · rcases mem_cons.mp member with rfl | later
        · exact Nat.zero_le _
        · exact Nat.le_succ_of_le (ih later)
      · rcases mem_cons.mp member with rfl | later
        · exact Nat.succ_le_succ (ih mem_cons_self)
        · exact Nat.le_succ_of_le (ih (mem_cons_of_mem _ later))

theorem length_le_of_mem_parts {path : Text} (member : part ∈ Path.parts path) :
    part.length ≤ path.length := by
  obtain ⟨piece, listed, rfl⟩ := mem_map.mp member
  exact length_le_of_mem_splitBytes listed

/-- A long name of letters `a` only. -/
def longName (n : Nat) : Text := ⟨replicate (n + 3) 97⟩

theorem isName_of_long (long : 3 ≤ part.bytes.length) (whole : slash ∉ part.bytes) :
    IsName part := by
  have short : here.bytes.length < 3 ∧ above.bytes.length < 3 := by decide
  refine ⟨?_, ?_, ?_, whole⟩
  · rintro rfl
    exact absurd long (by decide)
  · rintro rfl
    omega
  · rintro rfl
    omega

theorem isName_longName (n : Nat) : IsName (longName n) := by
  have long : (longName n).bytes.length = n + 3 := length_replicate
  refine isName_of_long (long ▸ Nat.le_add_left 3 n) fun slashed => ?_
  exact absurd (eq_of_mem_replicate slashed) (by decide)

end Path

/-! ## The two kinds of files -/

namespace Files

variable {folder owner title : Text} {s t : Text}

/-- A byte that does not show in the name of a file, where it looks like an underscore. -/
def isUnusual (b : UInt8) : Bool := !isFileByte b || b == 95

/-- Two texts differ in nothing but unusual bytes. -/
def LookAlike (s t : Text) : Prop :=
  Forall₂ (fun a b => a = b ∨ isUnusual a = true ∧ isUnusual b = true) s.bytes t.bytes

theorem fileByte_eq_iff (a b : UInt8) :
    (if isFileByte a then a else 95) = (if isFileByte b then b else 95) ↔
      a = b ∨ isUnusual a = true ∧ isUnusual b = true := by
  have differ : isFileByte a ≠ isFileByte b → a ≠ b := fun other same => other (congrArg _ same)
  unfold isUnusual
  cases plain : isFileByte a <;> cases plainToo : isFileByte b <;>
    simp only [plain, plainToo, ne_eq, Bool.false_eq_true, Bool.true_eq_false, not_false_eq_true,
      forall_const, if_true, if_false, Bool.not_true, Bool.not_false, Bool.true_or, Bool.false_or,
      beq_iff_eq, true_and, and_true, not_true_eq_false, and_self, or_true] at differ ⊢
  · exact ⟨fun same => .inr same.symm, fun either => (either.resolve_left differ).symm⟩
  · exact ⟨.inr, fun either => either.resolve_left differ⟩
  · exact ⟨.inl, fun either => either.elim id fun both => both.1.trans both.2.symm⟩

theorem fileName_eq_iff : fileName s = fileName t ↔ LookAlike s t := by
  have bytes : fileName s = fileName t ↔ (fileName s).bytes = (fileName t).bytes :=
    ⟨congrArg _, Text.ext⟩
  rw [bytes, ← forall₂_eq_eq_eq, fileName, fileName, forall₂_map_left_iff, forall₂_map_right_iff]
  simp only [fileByte_eq_iff]
  rfl

theorem fileName_append_inj {ending : Text} :
    fileName s ++ ending = fileName t ++ ending ↔ LookAlike s t := by
  rw [← fileName_eq_iff]
  constructor
  · intro same
    exact Text.ext (append_cancel_right (congrArg Text.bytes same))
  · exact congrArg (· ++ ending)

theorem isName_fileName {ending : Text} (long : 3 ≤ ending.bytes.length)
    (whole : slash ∉ ending.bytes) (title : Text) : IsName (fileName title ++ ending) := by
  have grown : 3 ≤ (fileName title ++ ending).bytes.length := by
    rw [Text.bytes_append, length_append]
    omega
  refine isName_of_long grown ?_
  rw [Text.bytes_append, mem_append, not_or]
  refine ⟨fun slashed => ?_, whole⟩
  obtain ⟨b, -, made⟩ := mem_map.mp slashed
  split at made
  next plain =>
    rw [made] at plain
    exact absurd plain (by decide)
  · exact absurd made (by decide)

/-- The name of the folder for bodies and the endings of the files, byte by byte. -/
theorem spelled : (("ir" : String) : Text).bytes = [105, 114] ∧
    ((".txt" : String) : Text).bytes = [46, 116, 120, 116] ∧
    ((".dot" : String) : Text).bytes = [46, 100, 111, 116] := by
  decide

theorem isName_body (title : Text) : IsName (fileName title ++ ".txt") :=
  isName_fileName (by rw [spelled.2.1]; decide) (by rw [spelled.2.1]; decide) title

theorem isName_drawing (title : Text) : IsName (fileName title ++ ".dot") :=
  isName_fileName (by rw [spelled.2.2]; decide) (by rw [spelled.2.2]; decide) title

theorem bodyPath_eq (some : folder ≠ ∅) (owner title : Text) : bodyPath folder owner title =
    along folder ([("ir" : Text)] ++ parts owner ++ [fileName title ++ ".txt"]) := by
  have first : parts "ir" = [("ir" : Text)] :=
    parts_of_not_mem (by rw [spelled.1]; decide)
  have last := parts_of_not_mem (isName_body title).2.2.2
  rw [bodyPath, join_eq_along some, flatMap_cons, flatMap_cons, flatMap_singleton, first, last,
    append_assoc]

theorem drawingPath_eq (some : folder ≠ ∅) (owner title : Text) :
    drawingPath folder (drawingName owner title) =
      along folder ([] ++ parts owner ++ [fileName title ++ ".dot"]) := by
  have last := parts_of_not_mem (isName_drawing title).2.2.2
  have apart : drawingName owner title ++ ".dot" = owner ++ "/" ++ (fileName title ++ ".dot") :=
    Text.ext (append_assoc _ _ _)
  rw [drawingPath, join_eq_along some, flatMap_singleton, apart, parts_append, last, nil_append]

/-! ## What stands apart -/

/-- Files for the methods of classes, with some parts in front of the name of the class. They stay
below every folder exactly when the name does not lead above it, and share a path exactly when the
names of the classes lead to one place and the titles of the methods look alike. -/
structure StandApart (path : (folder owner title : Text) → Text) (base : List Text) : Prop where
  below_iff : ∀ owner title, (∀ folder, folder ≠ ∅ → IsBelow folder (path folder owner title)) ↔
    (inside? (base ++ Path.parts owner)).isSome
  same_iff : ∀ folder owner title owner' title', folder ≠ ∅ →
    (inside? (base ++ Path.parts owner)).isSome → (inside? (base ++ Path.parts owner')).isSome →
      (path folder owner title = path folder owner' title' ↔
        inside? (base ++ Path.parts owner) = inside? (base ++ Path.parts owner') ∧
          LookAlike title title')

theorem standApart_of_along {path : (folder owner title : Text) → Text} {base : List Text}
    {ending : Text} (short : ∀ part ∈ base, part.length ≤ 2 ∧ slash ∉ part.bytes)
    (last : ∀ title, IsName (fileName title ++ ending))
    (dotted : ending.bytes.head? = some 46)
    (walks : ∀ folder owner title, folder ≠ ∅ → path folder owner title =
      along folder (base ++ parts owner ++ [fileName title ++ ending])) :
    StandApart path base := by
  have whole : ∀ owner, ∀ part ∈ base ++ parts owner, slash ∉ part.bytes := fun owner =>
    forall_mem_append.mpr ⟨fun part member => (short part member).2, fun _ => slash_not_mem⟩
  refine ⟨fun owner title => ⟨fun below => ?_, fun stays folder some => ?_⟩, ?_⟩
  · rw [Option.isSome_iff_ne_none]
    intro climbs
    have name := isName_longName owner.length
    have absent : longName owner.length ∉ base ++ parts owner := by
      intro listed
      have long : (longName owner.length).length = owner.length + 3 := length_replicate
      rcases mem_append.mp listed with front | inner
      · have few := (short _ front).1
        omega
      · have few := Path.length_le_of_mem_parts inner
        omega
    have other : longName owner.length ≠ fileName title ++ ending := by
      intro same
      obtain ⟨rest, spelled⟩ := head?_eq_some_iff.mp dotted
      have point : (46 : UInt8) ∈ (longName owner.length).bytes := by
        rw [same, Text.bytes_append, spelled]
        exact mem_append_right _ mem_cons_self
      exact absurd (eq_of_mem_replicate point) (by decide)
    have reached := below _ name.1
    rw [walks _ owner title name.1] at reached
    exact not_isBelow_along (whole owner) (last title) climbs name absent other reached
  · obtain ⟨inner, found⟩ := Option.isSome_iff_exists.mp stays
    rw [walks folder owner title some]
    exact isBelow_along (whole owner) (last title) found folder
  · intro folder owner title owner' title' some stays stays'
    obtain ⟨inner, found⟩ := Option.isSome_iff_exists.mp stays
    obtain ⟨inner', found'⟩ := Option.isSome_iff_exists.mp stays'
    rw [walks folder owner title some, walks folder owner' title' some,
      along_eq_iff (whole owner) (last title) (whole owner') (last title') found found' folder,
      fileName_append_inj, found, found', Option.some.injEq]

/-- What is written of a method. -/
inductive Dump where
  | body
  | drawing

/-- The path of what is written of a method. -/
def Dump.path : Dump → (folder owner title : Text) → Text
  | body => bodyPath
  | drawing => fun folder owner title => drawingPath folder (drawingName owner title)

/-- The folder in the given one that the folders of the classes are in. -/
def Dump.base : Dump → List Text
  | body => ["ir"]
  | drawing => []

/-- Bodies of methods and drawings of them stand apart as far as the names of their classes and
their own names and types allow it. -/
theorem dumps_stand_apart (dump : Dump) : StandApart dump.path dump.base := by
  cases dump with
  | body =>
    refine standApart_of_along (forall_mem_singleton.mpr ⟨?_, by rw [spelled.1]; decide⟩)
      isName_body (by rw [spelled.2.1]; rfl) fun folder owner title some =>
        bodyPath_eq some owner title
    exact Nat.le_of_eq (congrArg length spelled.1)
  | drawing =>
    exact standApart_of_along (forall_mem_nil _) isName_drawing (by rw [spelled.2.2]; rfl)
      fun folder owner title some => drawingPath_eq some owner title

/-- A class whose name leads above the folder, and two methods of a class with one path. -/
theorem bodyPath_leaves :
    bodyPath "out" "../../evil" "m()V" = "evil/m__V.txt" ∧
      ¬ IsBelow "out" (bodyPath "out" "../../evil" "m()V") ∧
      bodyPath "out" "A" "f([I)V" = bodyPath "out" "A" "f_(I)V" := by
  have runs : bodyPath "out" "../../evil" "m()V" = "evil/m__V.txt" ∧
      bodyPath "out" "A" "f([I)V" = bodyPath "out" "A" "f_(I)V" ∧ Path.clean "out" = "out" ∧
      ("out" : Text) ≠ Path.here ∧ ("out" : Text) ≠ "/" ∧
      ("evil/m__V.txt" : Text).first? ≠ some 111 := by decide
  obtain ⟨outside, alike, folder, other, notRoot, starts⟩ := runs
  refine ⟨outside, ?_, alike⟩
  rintro ⟨down, more, -, same⟩
  have goes : down.isEmpty = false := isEmpty_eq_false_iff.mpr more
  have inside : (Path.under "out" down).first? = some 111 := by
    unfold Path.under
    rw [goes, if_neg Bool.false_ne_true, if_neg other, if_neg notRoot]
    rfl
  rw [folder, outside] at same
  rw [← same] at inside
  exact starts inside

end Files

end DexLift
