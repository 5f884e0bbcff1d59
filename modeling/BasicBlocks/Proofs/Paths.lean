import Mathlib.Data.List.Infix
import BasicBlocks.FileSystem.Access

/-!
# Paths

What the pieces of a path are, by its text. The pieces of a path that is joined to another follow
those of the other; what is above a path begins like it; and where pieces lead is told by them alone
as long as no links are followed. A path that never goes up leads down.
-/

namespace BasicBlocks

namespace Split

theorem pieces_eq_splitOn (mark : Char) (cs : List Char) : pieces mark cs = cs.splitOn mark := by
  induction cs using pieces.induct mark with
  | case1 => rfl
  | case2 cs ih => simp [pieces, List.splitOn_cons_eq_if_modifyHead, ih]
  | case3 c cs different nothing ih => exact absurd nothing (pieces_ne_nil mark cs)
  | case4 c cs different piece rest split ih =>
    rw [List.splitOn_cons_eq_if_modifyHead, if_neg (by simpa using different), ← ih]
    simp [pieces, different, split]

theorem pieces_append (mark : Char) (cs ds : List Char) :
    pieces mark (cs ++ mark :: ds) = pieces mark cs ++ pieces mark ds := by
  simp only [pieces_eq_splitOn, List.splitOn]
  exact List.splitOnP_append_cons cs ds (by simp)

theorem not_mem_of_mem_pieces {mark : Char} {cs piece : List Char} (h : piece ∈ pieces mark cs) :
    mark ∉ piece := by
  induction cs using pieces.induct mark generalizing piece with
  | case1 =>
    rw [pieces, List.mem_singleton] at h
    simp [h]
  | case2 cs ih =>
    rw [pieces, if_pos rfl] at h
    rcases List.mem_cons.mp h with rfl | h
    · exact List.not_mem_nil
    · exact ih h
  | case3 c cs different nothing ih => exact absurd nothing (pieces_ne_nil mark cs)
  | case4 c cs different first rest split ih =>
    rw [pieces, if_neg different, split] at h
    rcases List.mem_cons.mp h with rfl | h
    · have inside := ih (split ▸ List.mem_cons_self)
      simpa [Ne.symm different] using inside
    · exact ih (split ▸ List.mem_cons_of_mem first h)

theorem pieces_of_not_mem {mark : Char} {cs : List Char} (h : mark ∉ cs) :
    pieces mark cs = [cs] := by
  rw [pieces_eq_splitOn, List.splitOn_eq_singleton h]

theorem exists_pieces_concat_eq {mark c : Char} (different : c ≠ mark) (cs : List Char) :
    ∃ front piece, pieces mark (cs ++ [c]) = front ++ [piece] ∧ piece ≠ [] := by
  induction cs with
  | nil => exact ⟨[], [c], by simp [pieces, different], by simp⟩
  | cons first cs ih =>
    obtain ⟨front, piece, whole, filled⟩ := ih
    rw [List.cons_append, pieces, whole]
    split
    · exact ⟨[] :: front, piece, rfl, filled⟩
    · cases front with
      | nil => exact ⟨[], first :: piece, rfl, List.cons_ne_nil _ _⟩
      | cons p front => exact ⟨(first :: p) :: front, piece, rfl, filled⟩

end Split

namespace Path

/-- A path that leads down, or stays: relative, and without a piece that goes up. -/
structure Descends (path : String) : Prop where
  relative : isAbsolute path = false
  noUp : ['.', '.'] ∉ pieces path

theorem not_mem_of_mem_pieces {path : String} {piece : List Char} (h : piece ∈ pieces path) :
    '/' ∉ piece :=
  Split.not_mem_of_mem_pieces h

theorem isAbsolute_iff {path : String} :
    isAbsolute path = true ↔ ∃ cs, path.toList = '/' :: cs := by
  rw [isAbsolute, decide_eq_true_eq, List.head?_eq_some_iff]

theorem ne_empty_of_isAbsolute {path : String} (h : isAbsolute path = true) : path ≠ "" := by
  rintro rfl
  cases h

theorem isAbsolute_join {left : String} (right : String) (h : isAbsolute left = true) :
    isAbsolute (join left right) = true := by
  obtain ⟨cs, begins⟩ := isAbsolute_iff.mp h
  unfold join
  split
  next absolute => exact absolute
  next =>
    split
    next empty => simp [begins] at empty
    · exact isAbsolute_iff.mpr ⟨cs ++ right.toList, by simp [begins]⟩
    · exact isAbsolute_iff.mpr ⟨cs ++ '/' :: right.toList, by simp [begins]⟩

/-- Before a relative path stands what the left one alone decides. -/
theorem exists_join_eq_append (left : String) : ∃ before, ∀ right, isAbsolute right = false →
    join left right = before ++ right := by
  unfold join
  cases left.toList.getLast? with
  | none => exact ⟨"", fun right relative => by simp [relative]⟩
  | some c =>
    by_cases slash : c = '/'
    · exact ⟨left, fun right relative => by simp [relative, slash]⟩
    · exact ⟨left ++ "/", fun right relative => by simp [relative]⟩

theorem join_right_injective {left right right' : String} (relative : isAbsolute right = false)
    (relative' : isAbsolute right' = false) (h : join left right = join left right') :
    right = right' := by
  obtain ⟨before, joined⟩ := exists_join_eq_append left
  rw [joined right relative, joined right' relative'] at h
  exact String.append_right_inj before |>.mp h

/-- A path that a system call takes. -/
structure IsUsable (path : String) : Prop where
  noNul : '\x00' ∉ path.toList
  filled : path ≠ ""
  short : path.utf8ByteSize < FileSystem.pathBound

theorem join_empty (right : String) : join "" right = right := by
  unfold join
  split <;> rfl

/-- A relative path is joined by at most one slash. -/
theorem join_cases {left right : String} (filled : left ≠ "")
    (relative : isAbsolute right = false) :
    join left right = left ++ right ∨ join left right = left ++ ("/" ++ right) := by
  unfold join
  rw [relative, if_neg Bool.false_ne_true]
  split
  next empty =>
    exact absurd (String.toList_eq_nil_iff.mp (List.getLast?_eq_none_iff.mp empty)) filled
  next => exact Or.inl rfl
  next => exact Or.inr (String.append_assoc)

/-- A relative path that is joined does not change where the walk begins. -/
theorem isAbsolute_join_eq {left right : String} (relative : isAbsolute right = false) :
    isAbsolute (join left right) = isAbsolute left := by
  by_cases filled : left = ""
  · rw [filled, join_empty, relative]
    rfl
  have more : left.toList ≠ [] := by simpa using filled
  obtain whole | whole := join_cases filled relative <;>
    simp [whole, isAbsolute, List.head?_append_of_ne_nil _ more]

theorem IsUsable.of_join {left right : String} (filled : left ≠ "")
    (relative : isAbsolute right = false) (h : IsUsable (join left right)) : IsUsable left := by
  obtain ⟨noNul, _, short⟩ := h
  obtain whole | whole := join_cases filled relative <;>
    rw [whole, String.toList_append] at noNul <;>
    rw [whole, String.utf8ByteSize_append] at short <;>
    exact ⟨fun nul => noNul (List.mem_append_left _ nul), filled, by omega⟩

theorem IsUsable.join {left right : String} (h : IsUsable left)
    (relative : isAbsolute right = false) (noNul : '\x00' ∉ right.toList)
    (short : (Path.join left right).utf8ByteSize < FileSystem.pathBound) :
    IsUsable (Path.join left right) := by
  have filled := h.filled
  have noNul' := h.noNul
  obtain whole | whole := join_cases filled relative <;> rw [whole] at short ⊢ <;>
    exact ⟨by simp [noNul, noNul'], by simp [filled], short⟩

/-- Pieces without an empty one at the end. -/
def unslashed (ps : List (List Char)) : List (List Char) :=
  if ps.getLast? = some [] then ps.dropLast else ps

/-- The pieces before those of a path that is joined on the right. -/
def stem (path : String) : List (List Char) := unslashed (pieces path)

theorem unslashed_isPrefix (ps : List (List Char)) : unslashed ps <+: ps := by
  unfold unslashed
  split
  · exact List.dropLast_prefix ps
  · exact List.prefix_refl ps

theorem unslashed_append {qs : List (List Char)} (more : qs ≠ []) (ps : List (List Char)) :
    unslashed (ps ++ qs) = ps ++ unslashed qs := by
  unfold unslashed
  rw [List.getLast?_append_of_ne_nil _ more, List.dropLast_append_of_ne_nil more]
  split <;> rfl

theorem pieces_join_eq (relative : isAbsolute right = false) :
    pieces (join left right) = stem left ++ pieces right := by
  by_cases filled : left = ""
  · rw [filled, join_empty]
    rfl
  obtain ⟨cs, c, ends⟩ : ∃ cs c, left.toList = cs ++ [c] :=
    (List.eq_nil_or_concat' left.toList).resolve_left (by simpa using filled)
  have last : left.toList.getLast? = some c := by simp [ends]
  by_cases slash : c = '/'
  · subst slash
    have joined : join left right = left ++ right := by
      simp [join, relative, last]
    have before : pieces left = Split.pieces '/' cs ++ [[]] := by
      rw [pieces, ends, Split.pieces_append]
      rfl
    rw [joined, pieces, String.toList_append, ends, List.append_assoc, List.singleton_append,
      Split.pieces_append, stem, before]
    simp [unslashed, pieces]
  · obtain ⟨front, piece, whole, more⟩ := Split.exists_pieces_concat_eq slash cs
    have joined : (join left right).toList = left.toList ++ '/' :: right.toList := by
      simp [join, relative, last]
    have before : pieces left = front ++ [piece] := by rw [pieces, ends, whole]
    have kept : stem left = pieces left := by
      rw [stem, before]
      simp [unslashed, more]
    rw [kept, pieces, joined, Split.pieces_append]
    rfl

theorem pieces_eq_stem (path : String) :
    pieces path = stem path ∨ pieces path = stem path ++ [[]] := by
  unfold stem unslashed
  split
  next last =>
    obtain ⟨front, whole⟩ := List.getLast?_eq_some_iff.mp last
    exact Or.inr (by rw [whole, List.dropLast_concat])
  next => exact Or.inl rfl

theorem origin_of_isAbsolute {path : String} (absolute : isAbsolute path = true)
    (here : Location) : origin here path = [] := if_pos absolute

end Path

namespace Location

/-- Where one piece of a path leads. -/
def step (here : Location) (piece : List Char) : Location :=
  if Path.isVoid piece then here
  else if piece = ['.', '.'] then here.dropLast
  else here ++ [String.ofList piece]

/-- Where pieces lead, whatever lies on the way. -/
def along (here : Location) (pieces : List (List Char)) : Location := pieces.foldl step here

@[simp] theorem along_nil (here : Location) : along here [] = here := rfl

@[simp] theorem along_cons (here : Location) (piece : List Char) (pieces : List (List Char)) :
    along here (piece :: pieces) = along (step here piece) pieces := rfl

theorem along_append (here : Location) (ps qs : List (List Char)) :
    along here (ps ++ qs) = along (along here ps) qs := List.foldl_append

@[simp] theorem step_empty (here : Location) : step here [] = here := by
  simp [step, Path.isVoid]

/-- Wherever it begins, it leads down by the same names. -/
theorem exists_along_eq_append {pieces : List (List Char)} (h : ['.', '.'] ∉ pieces) :
    ∃ down, ∀ here, along here pieces = here ++ down := by
  induction pieces with
  | nil => exact ⟨[], fun here => (List.append_nil here).symm⟩
  | cons piece rest ih =>
    have notUp : piece ≠ ['.', '.'] := fun up => h (up ▸ List.mem_cons_self)
    obtain ⟨down, later⟩ := ih fun up => h (List.mem_cons_of_mem piece up)
    by_cases void : Path.isVoid piece = true
    · exact ⟨down, fun here => by rw [along_cons, later, step, if_pos void]⟩
    · refine ⟨String.ofList piece :: down, fun here => ?_⟩
      rw [along_cons, later, step, if_neg void, if_neg notUp, List.append_assoc]
      rfl

theorem isPrefix_along {pieces : List (List Char)} (h : ['.', '.'] ∉ pieces) (here : Location) :
    here <+: along here pieces := by
  obtain ⟨down, along⟩ := exists_along_eq_append h
  exact along here ▸ List.prefix_append here down

theorem isPrefix_step {piece : List Char} {rest : List (List Char)} (h : ['.', '.'] ∉ piece :: rest)
    (here : Location) : here <+: step here piece := by
  have notUp : ['.', '.'] ∉ [piece] := fun up =>
    h (List.mem_cons.mpr (Or.inl (List.mem_singleton.mp up)))
  exact isPrefix_along notUp here

/-- The first pieces lead to what is above. -/
theorem along_isPrefix_of_isPrefix {ps qs : List (List Char)} (part : ps <+: qs)
    (h : ['.', '.'] ∉ qs) (here : Location) : along here ps <+: along here qs := by
  obtain ⟨rest, rfl⟩ := part
  rw [along_append]
  exact isPrefix_along (fun up => h (List.mem_append_right ps up)) _

end Location

/-! ## Names -/

/-- A name that a directory can give what it holds. -/
structure IsName (name : String) : Prop where
  notVoid : Path.isVoid name.toList = false
  notUp : name.toList ≠ ['.', '.']
  noSlash : '/' ∉ name.toList

instance (name : String) : Decidable (IsName name) :=
  decidable_of_iff (Path.isVoid name.toList = false ∧ name.toList ≠ ['.', '.'] ∧
    '/' ∉ name.toList) ⟨fun h => ⟨h.1, h.2.1, h.2.2⟩, fun h => ⟨h.notVoid, h.notUp, h.noSlash⟩⟩

namespace IsName

variable {name : String} (h : IsName name)

include h

theorem relative : Path.isAbsolute name = false := by
  rw [← Bool.not_eq_true, Path.isAbsolute_iff]
  rintro ⟨cs, begins⟩
  exact h.noSlash (begins ▸ List.mem_cons_self)

theorem pieces : Path.pieces name = [name.toList] := Split.pieces_of_not_mem h.noSlash

theorem step (here : Location) : Location.step here name.toList = here ++ [name] := by
  simp [Location.step, h.notVoid, h.notUp]

end IsName

/-- Beneath a location, and not the location itself. -/
def Location.Below (place p : Location) : Prop := place <+: p ∧ p ≠ place

instance (place p : Location) : Decidable (Location.Below place p) :=
  inferInstanceAs (Decidable (_ ∧ _))

namespace Split

theorem pieces_joined {mark : Char} {ps : List (List Char)} (some : ps ≠ [])
    (unmarked : ∀ piece ∈ ps, mark ∉ piece) : pieces mark (joined mark ps) = ps := by
  induction ps with
  | nil => exact absurd rfl some
  | cons piece rest ih =>
    cases rest with
    | nil => exact pieces_of_not_mem (unmarked piece List.mem_cons_self)
    | cons second rest =>
      have later := ih (List.cons_ne_nil second rest) fun p hp =>
        unmarked p (List.mem_cons_of_mem piece hp)
      rw [joined, pieces_append, later, pieces_of_not_mem (unmarked piece List.mem_cons_self)]
      · rfl
      · exact List.cons_ne_nil second rest

end Split

theorem noSlash_of_names {names : List String} (named : ∀ name ∈ names, IsName name) :
    ∀ piece ∈ names.map String.toList, '/' ∉ piece :=
  List.forall_mem_map.mpr fun name member => (named name member).noSlash

/-- Names that are joined by slashes are told apart again. -/
theorem Split.pieces_joined_names {names : List String} (filled : names ≠ [])
    (named : ∀ name ∈ names, IsName name) :
    pieces '/' (joined '/' (names.map String.toList)) = names.map String.toList :=
  pieces_joined (by simpa using filled) (noSlash_of_names named)

namespace Path

theorem unslashed_names {names : List String} (named : ∀ name ∈ names, IsName name)
    (ps : List (List Char)) (filled : names ≠ []) :
    unslashed (ps ++ names.map String.toList) = ps ++ names.map String.toList := by
  rw [unslashed, if_neg]
  rw [List.getLast?_append_of_ne_nil _ (by simpa using filled), List.getLast?_map]
  intro empty
  obtain ⟨name, last, none⟩ := Option.map_eq_some_iff.mp empty
  have notVoid := (named name (List.mem_of_getLast? last)).notVoid
  simp [none, isVoid] at notVoid

theorem trimBody_isPrefix (body : List (List Char)) : trimBody body <+: body := by
  have tail : body.reverse.dropWhile isVoid <:+ body.reverse := List.dropWhile_suffix isVoid
  simpa [trimBody] using List.reverse_prefix.mpr tail

theorem exists_body {path : String} (absolute : isAbsolute path = true) :
    ∃ body, pieces path = [] :: body ∧ front path = (some .root, body) := by
  obtain ⟨cs, begins⟩ := isAbsolute_iff.mp absolute
  have whole : pieces path = [] :: Split.pieces '/' cs := by
    rw [pieces, begins, Split.pieces, if_pos rfl]
  exact ⟨_, whole, by simp [front, whole, absolute]⟩

/-- The path from the root through these pieces. -/
theorem stem_assemble_root {body : List (List Char)} (unmarked : ∀ piece ∈ body, '/' ∉ piece) :
    isAbsolute (assemble (some .root) body) = true ∧
      stem (assemble (some .root) body) <+: [] :: body := by
  cases body with
  | nil => decide
  | cons piece rest =>
    have all : ∀ p ∈ [] :: piece :: rest, '/' ∉ p := by simpa using unmarked
    have text : (assemble (some .root) (piece :: rest)).toList =
        Split.joined '/' ([] :: piece :: rest) := by simp [assemble]
    refine ⟨isAbsolute_iff.mpr ⟨_, text⟩, ?_⟩
    rw [stem, pieces, text, Split.pieces_joined (List.cons_ne_nil _ _) all]
    exact unslashed_isPrefix _

theorem parent_of_absolute {path above : String} (absolute : isAbsolute path = true)
    (h : parent? path = some above) :
    isAbsolute above = true ∧ stem above <+: pieces path := by
  obtain ⟨body, whole, begins⟩ := exists_body absolute
  rw [parent?, begins] at h
  dsimp only at h
  split at h
  · cases h
  · have part : trimBody (trimBody body).dropLast <+: body :=
      (trimBody_isPrefix _).trans ((List.dropLast_prefix _).trans (trimBody_isPrefix body))
    obtain rfl := Option.some.inj h
    have unmarked : ∀ piece ∈ body, '/' ∉ piece := fun piece hp =>
      not_mem_of_mem_pieces (whole ▸ List.mem_cons_of_mem [] hp)
    obtain ⟨absolute', sub⟩ := stem_assemble_root fun piece hp => unmarked piece (part.subset hp)
    refine ⟨absolute', ?_⟩
    rw [whole]
    exact sub.trans ((List.prefix_cons_inj _).mpr part)

/-- A relative path begins with a piece that says something, or with a dot, unless it is empty. -/
theorem exists_pieces_of_relative {path : String} (relative : isAbsolute path = false)
    (filled : path ≠ "") : ∃ piece rest, pieces path = piece :: rest ∧ piece ≠ [] := by
  cases text : path.toList with
  | nil => exact absurd (String.toList_eq_nil_iff.mp text) filled
  | cons c cs =>
    have different : c ≠ '/' := by
      rintro rfl
      exact absurd (isAbsolute_iff.mpr ⟨cs, text⟩) (by simp [relative])
    rw [pieces, text, Split.pieces, if_neg different]
    split
    next nothing => exact absurd nothing (Split.pieces_ne_nil '/' cs)
    next piece rest _ => exact ⟨c :: piece, rest, rfl, List.cons_ne_nil c piece⟩

/-- The relative path through these pieces. -/
theorem pieces_of_joined {lead : List Char} {body : List (List Char)} (begins : lead ≠ [])
    (unmarked : ∀ piece ∈ lead :: body, '/' ∉ piece) :
    isAbsolute (String.ofList (Split.joined '/' (lead :: body))) = false ∧
      pieces (String.ofList (Split.joined '/' (lead :: body))) = lead :: body := by
  have whole : pieces (String.ofList (Split.joined '/' (lead :: body))) = lead :: body := by
    rw [pieces, String.toList_ofList, Split.pieces_joined (List.cons_ne_nil _ _) unmarked]
  refine ⟨?_, whole⟩
  rw [← Bool.not_eq_true, isAbsolute_iff]
  rintro ⟨cs, text⟩
  rw [pieces, text, Split.pieces, if_pos rfl] at whole
  exact begins (List.cons.inj whole).1.symm

theorem pieces_empty : pieces "" = [[]] := by decide

theorem parent_of_relative {path above : String} (relative : isAbsolute path = false)
    (h : parent? path = some above) :
    isAbsolute above = false ∧ stem above <+: pieces path := by
  have filled : path ≠ "" := by
    rintro rfl
    cases h
  obtain ⟨piece, rest, whole, begins⟩ := exists_pieces_of_relative relative filled
  have unmarked : ∀ p ∈ piece :: rest, '/' ∉ p := fun p hp => not_mem_of_mem_pieces (whole ▸ hp)
  have part : ∀ body, trimBody (trimBody body).dropLast <+: body := fun body =>
    (trimBody_isPrefix _).trans ((List.dropLast_prefix _).trans (trimBody_isPrefix body))
  have emptyAbove : isAbsolute "" = false ∧ stem "" <+: pieces path := ⟨rfl, List.nil_prefix⟩
  have joined : ∀ lead body, lead ≠ [] → lead :: body <+: pieces path →
      isAbsolute (String.ofList (Split.joined '/' (lead :: body))) = false ∧
        stem (String.ofList (Split.joined '/' (lead :: body))) <+: pieces path := by
    intro lead body filled within
    obtain ⟨relative', same⟩ :=
      pieces_of_joined filled fun p hp => unmarked p (whole ▸ within.subset hp)
    refine ⟨relative', ?_⟩
    rw [stem, same]
    exact (unslashed_isPrefix _).trans within
  unfold parent? front at h
  simp only [whole, relative, Bool.false_eq_true, if_false] at h
  split at h
  next dot =>
    split at h
    next => exact Option.some.inj h ▸ emptyAbove
    next =>
      obtain rfl := Option.some.inj h
      have within : ['.'] :: trimBody (trimBody rest).dropLast <+: pieces path := by
        rw [whole, dot]
        exact (List.prefix_cons_inj _).mpr (part rest)
      exact joined ['.'] _ (List.cons_ne_nil _ _) within
  next =>
    split at h
    · cases h
    · obtain rfl := Option.some.inj h
      have within := part (piece :: rest)
      cases kept : trimBody (trimBody (piece :: rest)).dropLast with
      | nil => exact emptyAbove
      | cons lead body =>
        rw [kept] at within
        obtain rfl : lead = piece := (List.cons_prefix_cons.mp within).1
        exact joined lead body begins (whole ▸ within)

/-- What is above a path begins like it. -/
theorem stem_isPrefix_of_parent {path above : String} (h : parent? path = some above) :
    isAbsolute above = isAbsolute path ∧ stem above <+: pieces path := by
  cases absolute : isAbsolute path with
  | true => exact parent_of_absolute absolute h
  | false => exact parent_of_relative absolute h

end Path

end BasicBlocks
