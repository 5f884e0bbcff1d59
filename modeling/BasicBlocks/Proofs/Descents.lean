import Mathlib.Data.List.DropRight
import BasicBlocks.Proofs.Directories
import BasicBlocks.Scratch.Run

/-!
# Descents

Paths that lead down from a run's root, and never up. Runs whose names differ have the same paths
below their roots, but for the name: they are as long, and their parents are such paths again.
-/

namespace BasicBlocks

open FileSystem (Fits)

/-! ## Names of roots -/

/-- A name that is drawn for a run's root. -/
def IsRunName (name : String) : Prop := ∃ draw : Draw, name = RunScratch.rootName draw

theorem utf8Size_of_isAlphanum {c : Char} (h : c.isAlphanum = true) : c.utf8Size = 1 := by
  have short : c.val ≤ 0x7f := by
    have letterOrDigit : (decide ('A'.val ≤ c.val ∧ c.val ≤ 'Z'.val) ||
        'a'.val ≤ c.val && c.val ≤ 'z'.val || '0'.val ≤ c.val && c.val ≤ '9'.val) = true := h
    simp only [Bool.or_eq_true, Bool.and_eq_true, decide_eq_true_eq] at letterOrDigit
    rcases letterOrDigit with (⟨_, h⟩ | ⟨_, h⟩) | ⟨_, h⟩ <;> exact UInt32.le_trans h (by decide)
  simp [Char.utf8Size, short]

theorem utf8ByteSize_of_isAlphanum {cs : List Char} (h : ∀ c ∈ cs, c.isAlphanum = true) :
    (String.ofList cs).utf8ByteSize = cs.length := by
  induction cs with
  | nil => rfl
  | cons c cs ih =>
    have first := utf8Size_of_isAlphanum (h c List.mem_cons_self)
    have later := ih fun d hd => h d (List.mem_cons_of_mem c hd)
    rw [String.ofList_cons, String.utf8ByteSize_append, String.utf8ByteSize_singleton, first, later,
      List.length_cons, Nat.add_comm]

theorem RunScratch.isName_rootName (draw : Draw) : IsName (rootName draw) := by
  have begins : (rootName draw).toList = 'r' :: 'u' :: 'n' :: '-' :: draw.text.toList := by
    simp [rootName, runMark]
  refine ⟨?_, ?_, ?_⟩
  · simp [begins, Path.isVoid]
  · simp [begins]
  · simp [begins, draw.noSlash]

namespace IsRunName

variable {name : String} (h : IsRunName name)

include h

theorem isName : IsName name := by
  obtain ⟨draw, rfl⟩ := h
  exact RunScratch.isName_rootName draw

theorem noNul : '\x00' ∉ name.toList := by
  obtain ⟨draw, rfl⟩ := h
  intro nul
  have inText : '\x00' ∈ draw.text.toList := by
    simpa [RunScratch.rootName, RunScratch.runMark] using nul
  exact absurd (draw.isAlphanum _ inText) (by decide)

theorem filled : name.toList ≠ [] := by
  obtain ⟨draw, rfl⟩ := h
  simp [RunScratch.rootName, RunScratch.runMark]

theorem utf8ByteSize_eq : name.utf8ByteSize = 10 := by
  obtain ⟨draw, rfl⟩ := h
  have six := utf8ByteSize_of_isAlphanum draw.isAlphanum
  rw [String.ofList_toList, draw.length_eq] at six
  rw [RunScratch.rootName, String.utf8ByteSize_append, six]
  decide

theorem fits : Fits name.toList := by
  refine Or.inr (Or.inr ?_)
  rw [String.ofList_toList, h.utf8ByteSize_eq]
  decide

end IsRunName

/-! ## Paths below a root -/

namespace Split

/-- A piece in the midst of the joined text, with a mark before and after it. -/
theorem joined_append_cons (mark : Char) (ps : List (List Char)) (piece : List Char)
    (qs : List (List Char)) :
    joined mark (ps ++ piece :: qs) =
      ps.flatMap (· ++ [mark]) ++ (piece ++ qs.flatMap (mark :: ·)) := by
  induction ps with
  | nil =>
    induction qs generalizing piece with
    | nil => simp [joined]
    | cons q qs ih =>
      have later := ih q
      simp only [List.nil_append, List.flatMap_nil] at later ⊢
      rw [joined, later]
      simp
      simp
  | cons p ps ih =>
    rw [List.cons_append, joined, ih]
    · simp
    · simp

end Split

/-- The path of a location is its names, with a slash before each. -/
theorem Location.toList_path {place : Location} (filled : place ≠ []) :
    place.path.toList = '/' :: Split.joined '/' (place.map String.toList) := by
  obtain ⟨name, rest, rfl⟩ := List.exists_cons_of_ne_nil filled
  have joined := Split.joined_append_cons '/' [] name.toList (rest.map String.toList)
  rw [List.nil_append] at joined
  rw [path, if_neg filled, List.map_cons, List.map_cons, joined]
  simp [String.toList_join, List.flatMap_map]

/-- What is dropped at the end comes after a member that is kept. -/
theorem reverse_dropWhile_append_cons {α : Type} {p : α → Bool} {a : α} (h : p a = false)
    (xs ys : List α) :
    ((xs ++ a :: ys).reverse.dropWhile p).reverse =
      xs ++ a :: (ys.reverse.dropWhile p).reverse := by
  rw [List.reverse_append, List.reverse_cons, List.append_assoc, List.dropWhile_append]
  split
  next none =>
    have gone : ys.reverse.dropWhile p = [] := by simpa using none
    simp [gone, h]
  next => simp

namespace Path

variable {left right : String}

theorem trimBody_trimBody (body : List (List Char)) :
    trimBody (trimBody body) = trimBody body :=
  List.rdropWhile_idempotent isVoid body

/-- The path leads down from the root of this name beneath a base, by these pieces. -/
structure Leads (base name : String) (rest : List (List Char)) (path : String) : Prop where
  noUp : ['.', '.'] ∉ rest
  pieces : pieces path = stem base ++ name.toList :: rest

theorem exists_stem_eq {base : String} (absolute : isAbsolute base = true) :
    ∃ front, stem base = [] :: front := by
  obtain ⟨cs, begins⟩ := isAbsolute_iff.mp absolute
  have whole : pieces base = [[]] ++ Split.pieces '/' cs := by
    rw [pieces, begins, Split.pieces, if_pos rfl]
    rfl
  exact ⟨unslashed (Split.pieces '/' cs), by
    rw [stem, whole, unslashed_append (Split.pieces_ne_nil '/' cs)]
    rfl⟩

theorem leads_join (base : String) {name : String} (isName : IsName name) :
    Leads base name [] (join base name) where
  noUp := List.not_mem_nil
  pieces := by
    rw [pieces_join_eq isName.relative, isName.pieces]

namespace Leads

variable {base name name' path path' : String} {rest : List (List Char)}

section

variable (h : Leads base name rest path)

include h

theorem toList_eq : path.toList = (stem base).flatMap (· ++ ['/']) ++
    (name.toList ++ rest.flatMap ('/' :: ·)) := by
  rw [← Split.joined_append_cons, ← h.pieces, Path.pieces, Split.joined_pieces]

/-- What lies below the root is not the base. -/
theorem ne_base (more : rest ≠ []) : base ≠ path := by
  rintro rfl
  have short : (Path.pieces base).length ≤ (stem base).length + 1 := by
    unfold stem unslashed
    split
    · rw [List.length_dropLast]
      omega
    · omega
  have long := List.length_pos_iff.mpr more
  rw [h.pieces, List.length_append, List.length_cons] at short
  omega

theorem isAbsolute (absolute : Path.isAbsolute base = true) : Path.isAbsolute path = true := by
  obtain ⟨front, whole⟩ := exists_stem_eq absolute
  exact isAbsolute_iff.mpr ⟨_, by rw [h.toList_eq, whole]; rfl⟩

/-- What is joined on the right leads further down. -/
theorem join (isName : IsName name) (descends : Descends right) :
    Leads base name (unslashed rest ++ Path.pieces right) (join path right) where
  noUp := by
    simpa [descends.noUp] using fun up => h.noUp ((unslashed_isPrefix rest).subset up)
  pieces := by
    rw [pieces_join_eq descends.relative, stem, h.pieces]
    cases rest with
    | nil =>
      have named : name.toList ≠ [] := fun none => by simpa [isVoid, none] using isName.notVoid
      simp [unslashed, named]
    | cons piece rest =>
      rw [List.append_cons, unslashed_append (List.cons_ne_nil piece rest)]
      simp

theorem front_eq {top : List (List Char)} (whole : stem base = [] :: top) :
    front path = (some .root, top ++ name.toList :: rest) := by
  have absolute : Path.isAbsolute path = true :=
    isAbsolute_iff.mpr ⟨_, by rw [h.toList_eq, whole]; rfl⟩
  simp [front, h.pieces, whole, absolute]

theorem namingPieces_eq (named : name.toList ≠ []) :
    FileSystem.namingPieces path =
      stem base ++ name.toList :: (rest.reverse.dropWhile (· = [])).reverse := by
  rw [FileSystem.namingPieces, h.pieces]
  exact reverse_dropWhile_append_cons (by simpa using named) _ _

theorem namesNoUp : ['.', '.'] ∉ (rest.reverse.dropWhile (· = [])).reverse := fun up =>
  h.noUp (List.mem_reverse.mp ((List.dropWhile_suffix _).subset (List.mem_reverse.mp up)))

/-- The parent of what lies below the root does not lie above it. -/
theorem exists_parent (absolute : Path.isAbsolute base = true) (isName : IsName name)
    (more : trimBody rest ≠ []) :
    ∃ above, parent? path = some above ∧
      Leads base name (trimBody (trimBody rest).dropLast) above := by
  obtain ⟨top, whole⟩ := exists_stem_eq absolute
  have trimmed : ∀ ys, trimBody (top ++ name.toList :: ys) = top ++ name.toList :: trimBody ys :=
    reverse_dropWhile_append_cons isName.notVoid top
  have kept : (top ++ name.toList :: trimBody rest).dropLast =
      top ++ name.toList :: (trimBody rest).dropLast := by
    rw [List.dropLast_append_of_ne_nil (List.cons_ne_nil _ _), List.dropLast_cons_of_ne_nil more]
  have part : trimBody (trimBody rest).dropLast <+: rest :=
    (trimBody_isPrefix _).trans ((List.dropLast_prefix _).trans (trimBody_isPrefix rest))
  refine ⟨assemble (some .root) (top ++ name.toList :: trimBody (trimBody rest).dropLast), ?_,
    fun up => h.noUp (part.subset up), ?_⟩
  · rw [parent?, h.front_eq whole]
    dsimp only
    rw [trimmed, kept, trimmed]
    simp
  · have unmarked : ∀ piece ∈ [] :: (top ++ name.toList :: trimBody (trimBody rest).dropLast),
        '/' ∉ piece := by
      intro piece member
      refine not_mem_of_mem_pieces (h.pieces ▸ whole ▸ ?_ : piece ∈ Path.pieces path)
      simp only [List.cons_append, List.mem_cons, List.mem_append] at member ⊢
      rcases member with empty | above | named | below
      · exact Or.inl empty
      · exact Or.inr (Or.inl above)
      · exact Or.inr (Or.inr (Or.inl named))
      · exact Or.inr (Or.inr (Or.inr (part.subset below)))
    have text : (assemble (some .root)
        (top ++ name.toList :: trimBody (trimBody rest).dropLast)).toList =
          Split.joined '/' ([] :: (top ++ name.toList :: trimBody (trimBody rest).dropLast)) := by
      simp [assemble]
    rw [Path.pieces, text, Split.pieces_joined (List.cons_ne_nil _ _) unmarked, whole]
    rfl

end

/-! ### The same descent from two roots -/

section

variable (h : Leads base name rest path) (h' : Leads base name' rest path')
  (drawn : IsRunName name) (drawn' : IsRunName name')

include h h' drawn drawn'

theorem utf8ByteSize_eq : path.utf8ByteSize = path'.utf8ByteSize := by
  have size : ∀ {name path : String}, IsRunName name → Leads base name rest path →
      path.utf8ByteSize = (String.ofList ((stem base).flatMap (· ++ ['/']))).utf8ByteSize + 10 +
        (String.ofList (rest.flatMap ('/' :: ·))).utf8ByteSize := by
    intro name path drawn h
    have whole : path = String.ofList ((stem base).flatMap (· ++ ['/'])) ++ name ++
        String.ofList (rest.flatMap ('/' :: ·)) := by
      rw [← String.toList_inj, h.toList_eq]
      simp
    rw [whole, String.utf8ByteSize_append, String.utf8ByteSize_append, drawn.utf8ByteSize_eq]
  rw [size drawn h, size drawn' h']

theorem getLast?_eq_slash_iff :
    path.toList.getLast? = some '/' ↔ path'.toList.getLast? = some '/' := by
  have named : ∀ {name : String}, IsRunName name → name.toList.getLast? ≠ some '/' :=
    fun drawn last => drawn.isName.noSlash (List.mem_of_getLast? last)
  rw [h.toList_eq, h'.toList_eq]
  cases rest with
  | nil =>
    simp only [List.flatMap_nil, List.append_nil, List.getLast?_append_of_ne_nil _ drawn.filled,
      List.getLast?_append_of_ne_nil _ drawn'.filled]
    exact iff_of_false (named drawn) (named drawn')
  | cons piece rest =>
    have more : (piece :: rest).flatMap ('/' :: ·) ≠ [] := by simp
    simp only [← List.append_assoc, List.getLast?_append_of_ne_nil _ more]

theorem length_components_eq (absolute : Path.isAbsolute base = true) :
    (components path).length = (components path').length := by
  obtain ⟨top, whole⟩ := exists_stem_eq absolute
  have named := drawn.isName.notVoid
  have named' := drawn'.isName.notVoid
  simp [components, h.front_eq whole, h'.front_eq whole, named, named']

theorem nul_mem_iff : '\x00' ∈ path.toList ↔ '\x00' ∈ path'.toList := by
  rw [h.toList_eq, h'.toList_eq]
  simp only [List.mem_append, drawn.noNul, drawn'.noNul]

theorem isUsable_iff (absolute : Path.isAbsolute base = true) :
    IsUsable path ↔ IsUsable path' := by
  have nul := h.nul_mem_iff h' drawn drawn'
  have size := h.utf8ByteSize_eq h' drawn drawn'
  have filled := ne_empty_of_isAbsolute (h.isAbsolute absolute)
  have filled' := ne_empty_of_isAbsolute (h'.isAbsolute absolute)
  exact ⟨fun usable => ⟨mt nul.mpr usable.noNul, filled', size ▸ usable.short⟩,
    fun usable => ⟨mt nul.mp usable.noNul, filled, size ▸ usable.short⟩⟩

end

end Leads

end Path

/-! ## Layouts below a root -/

theorem IsName.descends {name : String} (h : IsName name) : Path.Descends name where
  relative := h.relative
  noUp := by
    rw [h.pieces, List.mem_singleton]
    exact fun up => h.notUp up.symm

namespace Layout

theorem descends_binary : Path.Descends "binary" := ⟨by decide, by decide⟩

/-- The way to a root is part of the way to the tool's directory. -/
theorem onWay_binaryDir {fs : FileSystem} {root tool : String} {p : Location}
    (descends : Path.Descends tool) (onWay : fs.OnWay root p) :
    fs.OnWay (ofRoot root tool).binaryDir p :=
  (onWay.join descends.relative).join descends_binary.relative

/-- The pieces from a root to the tool's directory. -/
def toolSteps (tool : String) : List (List Char) :=
  Path.unslashed (Path.pieces tool) ++ Path.pieces "binary"

theorem toolSteps_ne_nil (tool : String) : toolSteps tool ≠ [] :=
  List.append_ne_nil_of_right_ne_nil _ (Split.pieces_ne_nil '/' _)

theorem trimBody_toolSteps (tool : String) : Path.trimBody (toolSteps tool) = toolSteps tool :=
  List.rdropWhile_concat_neg Path.isVoid _ _ (by decide)

theorem leads_binaryDir (base : String) {name tool : String} (isName : IsName name)
    (descends : Path.Descends tool) :
    Path.Leads base name (toolSteps tool) (ofRoot (Path.join base name) tool).binaryDir := by
  have root := Path.leads_join base isName
  have below := (root.join isName descends).join isName descends_binary
  have none : Path.unslashed [] = [] := rfl
  rw [none, List.nil_append] at below
  exact below

end Layout

end BasicBlocks
