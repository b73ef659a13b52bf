import DexLift.Files.Results

/-!
# Entries stay inside their folder

A path is brought into its shortest form part by part. When the parts of a name neither
go up nor are empty, the shortest form of the path that a folder and the name join to is
that of the folder, going on down through the parts that do not stay.

The name of an entry comes from a file that nobody vouches for. It is checked part by
part as it stands, while the path that it is joined to is brought into its shortest
form, so the two look at different parts. Still the path of an accepted entry is its
folder, or is reached from it by going down through names; and however the writing
ends, no file outside the folder has been made, changed or taken away.
-/

namespace DexLift

open List Text

/-! ## The pieces of a text -/

namespace Text

variable {separator : UInt8} {bytes piece : List UInt8} {p q : Text} {ps qs : List Text}

theorem splitBytes_ne_nil (separator : UInt8) (bytes : List UInt8) :
    splitBytes separator bytes ≠ [] := by
  induction bytes with
  | nil => exact cons_ne_nil _ _
  | cons b rest ih =>
    rw [splitBytes]
    split
    · exact cons_ne_nil _ _
    · split <;> exact cons_ne_nil _ _

theorem splitBytes_append (first second : List UInt8) :
    splitBytes separator (first ++ separator :: second) =
      splitBytes separator first ++ splitBytes separator second := by
  induction first with
  | nil =>
    rw [nil_append, splitBytes]
    cases pieces : splitBytes separator second with
    | nil => exact absurd pieces (splitBytes_ne_nil _ _)
    | cons piece pieces => simp [splitBytes, pieces]
  | cons b rest ih =>
    rw [cons_append, splitBytes, ih]
    cases pieces : splitBytes separator rest with
    | nil => exact absurd pieces (splitBytes_ne_nil _ _)
    | cons piece pieces =>
      rw [cons_append, splitBytes, pieces]
      dsimp only
      split <;> rfl

theorem splitBytes_of_not_mem (absent : separator ∉ bytes) :
    splitBytes separator bytes = [bytes] := by
  induction bytes with
  | nil => rfl
  | cons b rest ih =>
    rw [mem_cons, not_or] at absent
    rw [splitBytes, ih absent.2]
    exact if_neg (Ne.symm absent.1)

theorem not_mem_of_mem_splitBytes (member : piece ∈ splitBytes separator bytes) :
    separator ∉ piece := by
  induction bytes generalizing piece with
  | nil =>
    rw [mem_singleton.mp member]
    exact not_mem_nil
  | cons b rest ih =>
    rw [splitBytes] at member
    cases pieces : splitBytes separator rest with
    | nil => exact absurd pieces (splitBytes_ne_nil _ _)
    | cons first others =>
      rw [pieces] at member ih
      dsimp only at member
      split at member
      · rcases mem_cons.mp member with rfl | later
        · exact not_mem_nil
        · exact ih later
      next other =>
        rcases mem_cons.mp member with rfl | later
        · rw [mem_cons, not_or]
          exact ⟨fun same => other same.symm, ih mem_cons_self⟩
        · exact ih (.tail _ later)

theorem join_cons_cons (separator : Text) :
    join separator (p :: q :: qs) = p ++ separator ++ join separator (q :: qs) := rfl

end Text

/-! ## Paths in their shortest form -/

namespace Path

variable {rooted : Bool} {path folder name part : Text} {place parts down : List Text}

/-- A part that goes down: neither empty nor one of the two that name a directory by where they
stand, and without a slash. -/
def IsName (part : Text) : Prop :=
  part ≠ ∅ ∧ part ≠ here ∧ part ≠ above ∧ slash ∉ part.bytes

/-- The path that goes on from a folder down through some names. -/
def under (folder : Text) (down : List Text) : Text :=
  if down.isEmpty then folder
  else if folder = here then Text.join "/" down
  else if folder = "/" then "/" ++ Text.join "/" down
  else folder ++ "/" ++ Text.join "/" down

def render (rooted : Bool) (parts : List Text) : Text :=
  if rooted then "/" ++ Text.join "/" parts
  else if (Text.join "/" parts).isEmpty then here else Text.join "/" parts

def places (path : Text) : List Text := ((Path.parts path).foldl (step (isRooted path)) []).reverse

theorem clean_eq (path : Text) : clean path = render (isRooted path) (places path) := rfl

theorem bytes_slash : (("/" : String) : Text).bytes = [slash] := by decide

theorem bytes_here : here.bytes = [46] := by decide

theorem parts_append (first second : Text) :
    Path.parts (first ++ "/" ++ second) = Path.parts first ++ Path.parts second := by
  have bytes : (first ++ "/" ++ second).bytes = first.bytes ++ slash :: second.bytes := by
    change first.bytes ++ (("/" : String) : Text).bytes ++ second.bytes = _
    rw [bytes_slash, append_assoc, singleton_append]
  rw [Path.parts, Text.splitOn, bytes, Text.splitBytes_append, map_append]
  rfl

theorem slash_not_mem (member : part ∈ Path.parts path) : slash ∉ part.bytes := by
  obtain ⟨piece, listed, rfl⟩ := mem_map.mp member
  exact not_mem_of_mem_splitBytes listed

theorem parts_of_not_mem (absent : slash ∉ path.bytes) : Path.parts path = [path] := by
  rw [Path.parts, Text.splitOn, Text.splitBytes_of_not_mem absent]
  rfl

/-! ### Going down -/

theorem step_plain (plain : Files.isPlainPart part = true) :
    step rooted place part = if part = here then place else part :: place := by
  simp only [Files.isPlainPart, Bool.not_eq_true', Bool.or_eq_false_iff, beq_eq_false_iff_ne] at plain
  simp [step, plain.1, plain.2]

theorem foldl_step_plain (plain : parts.all Files.isPlainPart = true) :
    parts.foldl (step rooted) place = (parts.filter (· ≠ here)).reverse ++ place := by
  induction parts generalizing place with
  | nil => rfl
  | cons part rest ih =>
    rw [all_cons, Bool.and_eq_true] at plain
    rw [foldl_cons, ih plain.2, step_plain plain.1]
    by_cases stays : part = here
    · simp [stays]
    · simp [stays]

section

variable (clear : ∀ part ∈ place, part = above ∨ IsName part)

include clear

theorem isName_of_mem_step
    (whole : slash ∉ part.bytes) : ∀ other ∈ step rooted place part, other = above ∨ IsName other := by
  unfold step
  split
  · exact clear
  next goes =>
  split
  · split
    · split
      · exact forall_mem_nil _
      · exact forall_mem_singleton.mpr (.inl rfl)
    next last others =>
      rw [forall_mem_cons] at clear
      split
      · exact forall_mem_cons.mpr ⟨.inl rfl, forall_mem_cons.mpr clear⟩
      · exact clear.2
  next down =>
    simp only [Bool.or_eq_true, not_or, beq_iff_eq] at goes down
    refine forall_mem_cons.mpr ⟨.inr ⟨?_, goes.2, down, whole⟩, clear⟩
    rintro rfl
    exact goes.1 rfl

theorem isName_of_mem_foldl_step (whole : ∀ part ∈ parts, slash ∉ part.bytes) :
    ∀ part ∈ parts.foldl (step rooted) place, part = above ∨ IsName part := by
  induction parts generalizing place with
  | nil => exact clear
  | cons part rest ih =>
    rw [forall_mem_cons] at whole
    exact ih (isName_of_mem_step clear whole.1) whole.2

end

theorem isName_of_mem_places : ∀ part ∈ places path, part = above ∨ IsName part := by
  intro part member
  exact isName_of_mem_foldl_step (forall_mem_nil _) (fun _ => slash_not_mem) part
    (mem_reverse.mp member)

/-! ### The text of a path -/

theorem join_append (some : parts ≠ []) (more : down ≠ []) :
    Text.join "/" (parts ++ down) = Text.join "/" parts ++ "/" ++ Text.join "/" down := by
  induction parts with
  | nil => exact absurd rfl some
  | cons part rest ih =>
    cases rest with
    | nil =>
      cases down with
      | nil => exact absurd rfl more
      | cons next others => rfl
    | cons next others =>
      have rest := ih (cons_ne_nil _ _)
      rw [cons_append] at rest
      apply ext
      rw [cons_append, cons_append, join_cons_cons, join_cons_cons, rest]
      simp only [bytes_append, append_assoc]

theorem join_ne_empty (some : parts ≠ []) (solid : ∀ part ∈ parts, part ≠ ∅) :
    (Text.join "/" parts).bytes ≠ [] := by
  cases parts with
  | nil => exact absurd rfl some
  | cons part rest =>
    have nonempty : part.bytes ≠ [] := fun none => (forall_mem_cons.mp solid).1 (ext none)
    cases rest with
    | nil => exact nonempty
    | cons next others =>
      rw [join_cons_cons, bytes_append, bytes_append, append_assoc]
      exact append_ne_nil_of_left_ne_nil nonempty _

theorem join_ne (some : parts ≠ []) (proper : ∀ part ∈ parts, part = above ∨ IsName part) :
    Text.join "/" parts ≠ here ∧ Text.join "/" parts ≠ "/" := by
  cases parts with
  | nil => exact absurd rfl some
  | cons part rest =>
    have first := (forall_mem_cons.mp proper).1
    cases rest with
    | nil =>
      change part ≠ here ∧ part ≠ "/"
      rcases first with rfl | name
      · decide
      · refine ⟨name.2.1, ?_⟩
        rintro rfl
        exact name.2.2.2 (by decide)
    | cons next others =>
      have solid : part.bytes ≠ [] := by
        rcases first with rfl | name
        · decide
        · exact fun none => name.1 (ext none)
      have bytes : (Text.join "/" (part :: next :: others)).bytes =
          part.bytes ++ slash :: (Text.join "/" (next :: others)).bytes := by
        rw [join_cons_cons, bytes_append, bytes_append, bytes_slash, append_assoc]
        rfl
      have long : 2 ≤ (Text.join "/" (part :: next :: others)).bytes.length := by
        have positive := length_pos_iff.mpr solid
        rw [bytes, length_append, length_cons]
        omega
      constructor
      · intro same
        rw [same, bytes_here] at long
        exact absurd long (by decide)
      · intro same
        rw [same, bytes_slash] at long
        exact absurd long (by decide)

theorem solid_of_proper (proper : ∀ part ∈ parts, part = above ∨ IsName part) :
    ∀ part ∈ parts, part ≠ ∅ := by
  intro part member
  rcases proper part member with rfl | name
  · decide
  · exact name.1

theorem render_of_some (some : parts ≠ []) (solid : ∀ part ∈ parts, part ≠ ∅) :
    render rooted parts = if rooted then "/" ++ Text.join "/" parts else Text.join "/" parts := by
  have nonempty : (Text.join "/" parts).isEmpty = false :=
    isEmpty_eq_false_iff.mpr (join_ne_empty some solid)
  rw [render, nonempty]
  rfl

theorem render_ne (some : parts ≠ []) (proper : ∀ part ∈ parts, part = above ∨ IsName part) :
    render rooted parts ≠ here ∧ render rooted parts ≠ "/" := by
  have solid := solid_of_proper proper
  rw [render_of_some some solid]
  cases rooted with
  | false => exact join_ne some proper
  | true =>
    have bytes : ("/" ++ Text.join "/" parts).bytes = slash :: (Text.join "/" parts).bytes := by
      change (("/" : String) : Text).bytes ++ _ = _
      rw [bytes_slash]
      rfl
    have nonempty := join_ne_empty some solid
    constructor
    · intro same
      have both := congrArg Text.bytes same
      rw [if_pos rfl, bytes, bytes_here, cons.injEq] at both
      exact absurd both.1 (by decide)
    · intro same
      have both := congrArg Text.bytes same
      rw [if_pos rfl, bytes, bytes_slash, cons.injEq] at both
      exact nonempty both.2

theorem under_render (proper : ∀ part ∈ parts, part = above ∨ IsName part)
    (names : ∀ part ∈ down, IsName part) :
    under (render rooted parts) down = render rooted (parts ++ down) := by
  by_cases none : down = []
  · subst none
    rw [append_nil]
    rfl
  have more : down.isEmpty = false := isEmpty_eq_false_iff.mpr none
  have solid := solid_of_proper (forall_mem_append.mpr ⟨proper, fun part member => .inr (names part member)⟩)
  rw [render_of_some (append_ne_nil_of_right_ne_nil parts none) solid]
  unfold under
  rw [more, if_neg Bool.false_ne_true]
  by_cases some : parts = []
  · subst some
    cases rooted with
    | false => exact if_pos rfl
    | true =>
      have root : render true [] = "/" := by decide
      have other : ("/" : Text) ≠ here := by decide
      rw [root, if_neg other, if_pos rfl]
      rfl
  · obtain ⟨notHere, notRoot⟩ : render rooted parts ≠ here ∧ render rooted parts ≠ "/" :=
      render_ne some proper
    rw [if_neg notHere, if_neg notRoot, join_append some none,
      render_of_some some fun part member => solid part (mem_append_left _ member)]
    cases rooted with
    | false => rfl
    | true =>
      apply Text.ext
      simp only [if_pos, Text.bytes_append, append_assoc]

/-! ### Joining a folder and a name -/

theorem isRooted_append (some : folder ≠ ∅) :
    isRooted (folder ++ "/" ++ name) = isRooted folder := by
  obtain ⟨bytes⟩ := folder
  cases bytes with
  | nil => exact absurd rfl some
  | cons b rest => rfl

theorem not_isRooted (plain : (Path.parts name).all Files.isPlainPart = true) :
    isRooted name = false := by
  obtain ⟨bytes⟩ := name
  cases bytes with
  | nil => rfl
  | cons b rest =>
    rw [isRooted, beq_eq_false_iff_ne]
    intro rooted
    obtain rfl : b = slash := Option.some.inj rooted
    have first : Path.parts ⟨slash :: rest⟩ = ∅ :: Path.parts ⟨rest⟩ := parts_append ∅ ⟨rest⟩
    rw [first, all_cons] at plain
    cases plain

/-- The parts through which the name of an entry goes down. -/
def names (name : Text) : List Text := (Path.parts name).filter (· ≠ here)

section

variable (plain : (Path.parts name).all Files.isPlainPart = true)

include plain

theorem isName_of_mem_names : ∀ part ∈ names name, IsName part := by
  intro part member
  obtain ⟨listed, goes⟩ := mem_filter.mp member
  have allowed := all_eq_true.mp plain part listed
  simp only [Files.isPlainPart, Bool.not_eq_true', Bool.or_eq_false_iff, beq_eq_false_iff_ne]
    at allowed
  refine ⟨?_, of_decide_eq_true goes, allowed.2, slash_not_mem listed⟩
  rintro rfl
  exact absurd allowed.1 (by decide)

theorem join_eq : join [folder, name] = render (isRooted folder) (places folder ++ names name) := by
  have some : name ≠ ∅ := by
    rintro rfl
    exact absurd plain (by decide)
  have present : (!name.isEmpty) = true := by
    rw [Bool.not_eq_true']
    exact isEmpty_eq_false_iff.mpr fun none => some (ext none)
  by_cases none : folder = ∅
  · subst none
    have kept : [∅, name].filter (fun path : Text => !path.isEmpty) = [name] :=
      (filter_cons_of_neg (by decide)).trans (filter_eq_self.mpr (forall_mem_singleton.mpr present))
    have single : join [∅, name] = clean name := by
      unfold join
      rw [kept]
      rfl
    rw [single, clean_eq, places, not_isRooted plain, foldl_step_plain plain, append_nil,
      reverse_reverse]
    rfl
  · have held : (!folder.isEmpty) = true := by
      rw [Bool.not_eq_true']
      exact isEmpty_eq_false_iff.mpr fun empty => none (ext empty)
    have kept : [folder, name].filter (fun path : Text => !path.isEmpty) = [folder, name] :=
      filter_eq_self.mpr (forall_mem_cons.mpr ⟨held, forall_mem_singleton.mpr present⟩)
    have both : join [folder, name] = clean (folder ++ "/" ++ name) := by
      unfold join
      rw [kept]
      rfl
    rw [both, clean_eq, places, isRooted_append none, parts_append, foldl_append,
      foldl_step_plain plain, reverse_append, reverse_reverse]
    rfl

theorem join_under : join [folder, name] = under (clean folder) (names name) := by
  rw [clean_eq, under_render isName_of_mem_places (isName_of_mem_names plain), join_eq plain]

end

end Path

/-! ## Entries below their folder -/

open List

/-! ## Where a path leads -/

namespace Files

open DexLift.Path (IsName names)

variable {t : Tree} {rooted : Bool} {path folder name part : Text}
  {place next start parts down : List Text}

def follow (place : List Text) (part : Text) : List Text :=
  if part.isEmpty || part == Path.here then place
  else if part == Path.above then place.dropLast
  else place ++ [part]

/-- Where a path leads. -/
def Tree.reach (t : Tree) (path : Text) : List Text := (Path.parts path).foldl follow (t.start path)

theorem follow_of_isName (name : IsName part) : follow place part = place ++ [part] := by
  have solid : part.isEmpty = false :=
    isEmpty_eq_false_iff.mpr fun none => name.1 (Text.ext none)
  simp [follow, solid, name.2.1, name.2.2.1]

theorem follow_here : follow place Path.here = place := by
  simp [follow]

theorem follow_above : follow place Path.above = place.dropLast := by
  have up : (Path.above.isEmpty || Path.above == Path.here) = false := by decide
  rw [follow, up, if_neg Bool.false_ne_true, if_pos (beq_self_eq_true _)]

theorem foldl_follow_names (names : ∀ part ∈ down, IsName part) :
    down.foldl follow place = place ++ down := by
  induction down generalizing place with
  | nil => exact (append_nil place).symm
  | cons part rest ih =>
    obtain ⟨first, others⟩ := forall_mem_cons.mp names
    rw [foldl_cons, follow_of_isName first, ih others, append_assoc, singleton_append]

theorem eq_follow_of_below (entered : t.below place part = .ok next) : next = follow place part := by
  unfold Tree.below at entered
  unfold follow
  split at entered
  · cases entered
  split at entered
  next stays =>
    cases entered
    rw [if_pos stays]
  next goes =>
  rw [if_neg goes]
  split at entered
  next up =>
    cases entered
    rw [if_pos up]
  next down =>
  rw [if_neg down]
  split at entered
  · cases entered
  · cases entered
    rfl

theorem bind_eq_ok {α β : Type} {first : Except Fault α} {more : α → Except Fault β} {b : β} :
    first >>= more = .ok b ↔ ∃ a, first = .ok a ∧ more a = .ok b := by
  cases first <;> simp [bind, Except.bind]

theorem eq_follow_of_enter (entered : t.enter place part = .ok next) : next = follow place part := by
  obtain ⟨found, inside, entered⟩ := bind_eq_ok.mp entered
  split at entered
  · cases entered
    exact eq_follow_of_below inside
  · cases entered

theorem eq_foldl_of_enter (entered : parts.foldlM t.enter place = .ok next) :
    next = parts.foldl follow place := by
  induction parts generalizing place with
  | nil =>
    cases entered
    rfl
  | cons part rest ih =>
    rw [foldlM_cons] at entered
    obtain ⟨middle, first, entered⟩ := bind_eq_ok.mp entered
    rw [foldl_cons, ← eq_follow_of_enter first]
    exact ih entered

theorem foldl_follow_slashes (bytes : List UInt8) (n : Nat) :
    (Path.parts ⟨bytes ++ replicate n Path.slash⟩).foldl follow place =
      (Path.parts ⟨bytes⟩).foldl follow place := by
  induction n with
  | zero => rw [replicate_zero, append_nil]
  | succ n ih =>
    have last : (⟨bytes ++ replicate (n + 1) Path.slash⟩ : Text) =
        (⟨bytes ++ replicate n Path.slash⟩ : Text) ++ "/" ++ (∅ : Text) := by
      apply Text.ext
      change _ = bytes ++ replicate n Path.slash ++ (("/" : String) : Text).bytes ++ []
      rw [Path.bytes_slash, replicate_succ', append_nil, append_assoc]
    rw [last, Path.parts_append, foldl_append, ih]
    rfl

theorem foldl_follow_trimSlashes (path : Text) :
    (Path.parts (Path.trimSlashes path)).foldl follow place =
      (Path.parts path).foldl follow place := by
  obtain ⟨bytes⟩ := path
  have slashes : ∀ b ∈ bytes.reverse.takeWhile (· == Path.slash), b = Path.slash := fun b member =>
    beq_iff_eq.mp (all_eq_true.mp all_takeWhile b member)
  have whole : bytes = (bytes.reverse.dropWhile (· == Path.slash)).reverse ++
      replicate (bytes.reverse.takeWhile (· == Path.slash)).length Path.slash := by
    calc bytes
        = (bytes.reverse.takeWhile (· == Path.slash) ++
            bytes.reverse.dropWhile (· == Path.slash)).reverse := by
          rw [takeWhile_append_dropWhile, reverse_reverse]
      _ = _ := by
          rw [reverse_append]
          conv => lhs; rw [eq_replicate_of_mem slashes]
          rw [reverse_replicate]
  conv => rhs; rw [whole]
  exact (foldl_follow_slashes _ _).symm

theorem eq_reach_of_placeOf (found : t.placeOf path = .ok place) : place = t.reach path := by
  have some : Path.parts (Path.trimSlashes path) ≠ [] := by
    rw [Path.parts, Text.splitOn, Ne, map_eq_nil_iff]
    exact Text.splitBytes_ne_nil _ _
  obtain ⟨-, -, found⟩ := bind_eq_ok.mp found
  obtain ⟨middle, entered, found⟩ := bind_eq_ok.mp found
  rw [Tree.reach, ← foldl_follow_trimSlashes, ← dropLast_concat_getLast some, foldl_append,
    ← eq_foldl_of_enter entered, eq_follow_of_below found, getLast?_eq_some_getLast some]
  rfl

/-! ### The path of an entry leads below its folder -/

section

variable (proper : ∀ part ∈ place, part = Path.above ∨ IsName part)

include proper

theorem foldl_follow_step
    (root : rooted = true → start = []) :
    (Path.step rooted place part).reverse.foldl follow start =
      follow (place.reverse.foldl follow start) part := by
  unfold Path.step
  split
  next stays => rw [follow, if_pos stays]
  next goes =>
  split
  next up =>
    rw [beq_iff_eq.mp up, follow_above]
    cases place with
    | nil =>
      cases rooted with
      | true =>
        rw [root rfl]
        rfl
      | false => exact follow_above
    | cons last others =>
      rw [reverse_cons, foldl_append]
      change _ = (follow (others.reverse.foldl follow start) last).dropLast
      rcases (forall_mem_cons.mp proper).1 with rfl | name
      · rw [follow_above]
        simp only [beq_self_eq_true, if_true, reverse_cons, append_assoc, foldl_append, foldl_cons,
          foldl_nil, follow_above]
      · dsimp only
        rw [if_neg fun same => name.2.2.1 (beq_iff_eq.mp same), follow_of_isName name,
          dropLast_concat]
  next => rw [reverse_cons, foldl_append]; rfl

theorem foldl_follow_steps
    (whole : ∀ part ∈ parts, Path.slash ∉ part.bytes) (root : rooted = true → start = []) :
    (parts.foldl (Path.step rooted) place).reverse.foldl follow start =
      parts.foldl follow (place.reverse.foldl follow start) := by
  induction parts generalizing place with
  | nil => rfl
  | cons part rest ih =>
    rw [forall_mem_cons] at whole
    rw [foldl_cons, foldl_cons, ih (Path.isName_of_mem_step proper whole.1) whole.2,
      foldl_follow_step proper root]

end

theorem foldl_follow_places (root : Path.isRooted path = true → start = []) :
    (Path.places path).foldl follow start = (Path.parts path).foldl follow start :=
  foldl_follow_steps (forall_mem_nil _) (fun _ => Path.slash_not_mem) root

theorem parts_join (some : parts ≠ []) (whole : ∀ part ∈ parts, Path.slash ∉ part.bytes) :
    Path.parts (Text.join "/" parts) = parts := by
  induction parts with
  | nil => exact absurd rfl some
  | cons part rest ih =>
    rw [forall_mem_cons] at whole
    cases rest with
    | nil => exact Path.parts_of_not_mem whole.1
    | cons next others =>
      rw [Text.join_cons_cons, Path.parts_append, ih (cons_ne_nil _ _) whole.2,
        Path.parts_of_not_mem whole.1]
      rfl

section

variable (proper : ∀ part ∈ parts, part = Path.above ∨ IsName part)

include proper

theorem slash_not_mem_of_proper : ∀ part ∈ parts, Path.slash ∉ part.bytes := by
  intro part member
  rcases proper part member with rfl | name
  · decide
  · exact name.2.2.2

theorem foldl_follow_render :
    (Path.parts (Path.render rooted parts)).foldl follow place = parts.foldl follow place := by
  by_cases none : parts = []
  · subst none
    cases rooted with
    | false =>
      have single : Path.parts (Path.render false []) = [Path.here] := by decide
      rw [single]
      exact follow_here
    | true =>
      have double : Path.parts (Path.render true []) = [∅, ∅] := by decide
      rw [double]
      rfl
  · have apart := parts_join none (slash_not_mem_of_proper proper)
    rw [Path.render_of_some none (Path.solid_of_proper proper)]
    cases rooted with
    | false =>
      rw [if_neg Bool.false_ne_true, apart]
    | true =>
      have first : Path.parts ("/" ++ Text.join "/" parts) = ∅ :: Path.parts (Text.join "/" parts) :=
        Path.parts_append ∅ _
      rw [if_pos rfl, first, apart]
      rfl

theorem isRooted_render : Path.isRooted (Path.render rooted parts) = rooted := by
  by_cases none : parts = []
  · subst none
    cases rooted <;> decide
  rw [Path.render_of_some none (Path.solid_of_proper proper)]
  cases rooted with
  | true => rfl
  | false =>
    rw [if_neg Bool.false_ne_true]
    cases parts with
    | nil => exact absurd rfl none
    | cons part rest =>
      have whole := (forall_mem_cons.mp (slash_not_mem_of_proper proper)).1
      have solid := (forall_mem_cons.mp (Path.solid_of_proper proper)).1
      have first : (Text.join "/" (part :: rest)).first? = part.first? := by
        cases rest with
        | nil => rfl
        | cons next others =>
          rw [Text.join_cons_cons, Text.first?, Text.bytes_append, Text.bytes_append, append_assoc]
          obtain ⟨b, bytes, spelled⟩ := exists_cons_of_ne_nil fun empty => solid (Text.ext empty)
          rw [Text.first?, spelled]
          rfl
      rw [Path.isRooted, first, beq_eq_false_iff_ne]
      exact fun rooted => whole (mem_of_mem_head? rooted)

end

theorem reach_entryPath (plain : (Path.parts name).all isPlainPart = true) :
    t.reach (entryPath folder name) = t.reach folder ++ names name := by
  have below := Path.isName_of_mem_names plain
  have proper : ∀ part ∈ Path.places folder ++ names name, part = Path.above ∨ IsName part :=
    forall_mem_append.mpr ⟨Path.isName_of_mem_places, fun part member => .inr (below part member)⟩
  have begins : t.start (entryPath folder name) = t.start folder := by
    rw [Tree.start, Tree.start, entryPath, Path.join_eq plain, isRooted_render proper]
  have root : Path.isRooted folder = true → t.start folder = [] := fun rooted => if_pos rooted
  rw [Tree.reach, begins, entryPath, Path.join_eq plain, foldl_follow_render proper, foldl_append,
    foldl_follow_places root, foldl_follow_names below]
  rfl

/-- What is written under a name that an entry may have stays inside the folder. The path of the
entry goes on from the folder, in its shortest form, down through names, and is the folder itself
when there are none; and in every tree the place that is found for it lies where these names lead
from where the folder leads. -/
theorem entries_stay_inside (folder : Text) {name : Text} (accepted : isEntryName name = true) :
    ∃ down, (∀ part ∈ down, IsName part) ∧
      entryPath folder name = Path.under (Path.clean folder) down ∧
      ∀ (t : Tree) place, t.placeOf (entryPath folder name) = .ok place →
        place = t.reach folder ++ down := by
  obtain ⟨-, plain⟩ := Bool.and_eq_true_iff.mp accepted
  refine ⟨names name, Path.isName_of_mem_names plain, Path.join_under plain, fun t place found => ?_⟩
  rw [eq_reach_of_placeOf found, reach_entryPath plain]

/-- A folder outside the place where paths begin, and a name with a part that stays. -/
theorem entries_stay_inside_upwards :
    isEntryName "a/./b.class" = true ∧
    entryPath "../out/." "a/./b.class" = "../out/a/b.class" ∧
    Tree.reach ⟨[], ["work"]⟩ "../out/." = [("out" : Text)] ∧
    ∃ down, (∀ part ∈ down, IsName part) ∧
      entryPath "../out/." "a/./b.class" = Path.under (Path.clean "../out/.") down ∧
      ∀ (t : Tree) place, t.placeOf (entryPath "../out/." "a/./b.class") = .ok place →
        place = t.reach "../out/." ++ down :=
  ⟨by decide, by decide, by decide, entries_stay_inside "../out/." (by decide)⟩

end Files

end DexLift
