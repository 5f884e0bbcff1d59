import BasicBlocks.Proofs.ScratchSpace

/-!
# Paths from the current directory

A relative path is taken from the current directory. Made absolute it leads to the same directory,
and nothing is on its way but what is on the way of the relative path, and what the current
directory is in.
-/

namespace BasicBlocks

/-- The path of a location goes through the names that lead there. -/
theorem Location.stem_path {place : Location} (named : ∀ name ∈ place, IsName name) :
    Path.stem place.path = [] :: place.map String.toList := by
  by_cases root : place = []
  · subst root
    decide
  · have whole : Path.pieces place.path = [[]] ++ place.map String.toList := by
      rw [Path.pieces, toList_path root, Split.pieces, if_pos rfl,
        Split.pieces_joined_names root named]
      rfl
    rw [Path.stem, whole, Path.unslashed_names named _ root]
    rfl

namespace FileSystem

variable {fs made : FileSystem} {path base : String} {place p : Location}

theorem IsTree.isName_of_mem (tree : fs.IsTree) {entry : Entry}
    (there : fs.get? place = some entry) :
    ∀ name ∈ place, IsName name := by
  intro name member
  obtain ⟨front, rest, rfl⟩ := List.append_of_mem member
  have isPrefix : front ++ [name] <+: front ++ name :: rest := by simp
  obtain ⟨held, found⟩ := tree.exists_of_isPrefix isPrefix there
  exact tree.named front name held found

/-- A walk along the names of a directory comes to it. -/
theorem Walks.of_names {n : Nat} {here : Location} {rest : List (List Char)}
    (tree : fs.IsTree) (directory : fs.get? (here ++ place) = some .directory)
    (h : fs.Walks n here (place.map String.toList ++ rest) p) :
    fs.Walks n (here ++ place) rest p := by
  induction place generalizing here with
  | nil => simpa using h
  | cons name place ih =>
    have isName : IsName name := tree.isName_of_mem directory name (by simp)
    rw [List.append_cons] at directory ⊢
    have next := tree.directory_of_isPrefix (List.prefix_append _ _) directory
    cases h with
    | step _ _ _ later =>
      rw [isName.step] at later
      exact ih directory later
    | link _ _ leads _ =>
      rw [isName.step, next] at leads
      cases leads

/-- From the root a walk along an empty piece stays there. -/
theorem walk_of_names (tree : fs.IsTree) (directory : fs.get? place = some .directory)
    {front : List (List Char)}
    (walked : fs.walk [] (([] :: place.map String.toList) ++ front) = .ok p) :
    fs.walk place front = .ok p := by
  obtain ⟨n, le, walks⟩ := walk_eq_ok_iff.mp walked
  cases walks with
  | step _ _ _ later =>
    have down : fs.Walks n ([] ++ place) front p := later.of_names tree directory
    exact walk_eq_ok_iff.mpr ⟨n, le, down⟩
  | link _ _ leads _ => cases leads

/-- A path is made absolute by the names of the current directory, which is there. -/
theorem pieces_of_absolute (tree : fs.IsTree) (seen : fs.absolute path = .ok base)
    (relative : Path.isAbsolute path = false) :
    fs.get? fs.current = some .directory ∧
      Path.pieces base = ([] :: fs.current.map String.toList) ++ Path.pieces path := by
  rcases absolute_eq_ok_iff.mp seen with ⟨absolute, _⟩ | ⟨_, there, rfl⟩
  · exact absurd absolute (by simp [relative])
  · rw [Path.pieces_join_eq relative, Location.stem_path (tree.isName_of_mem there)]
    exact ⟨there, rfl⟩

theorem eq_of_absolute (seen : fs.absolute path = .ok base)
    (absolute : Path.isAbsolute path = true) : base = path := by
  rcases absolute_eq_ok_iff.mp seen with ⟨_, same⟩ | ⟨relative, _⟩
  · exact same
  · exact absurd relative (by simp [absolute])

/-- A path leads to the same directory once it is made absolute. -/
theorem LeadsTo.of_absolute (tree : fs.IsTree) (seen : fs.absolute path = .ok base)
    (h : fs.LeadsTo base p) : fs.LeadsTo path p := by
  cases absolute : Path.isAbsolute path with
  | true => exact eq_of_absolute seen absolute ▸ h
  | false =>
    obtain ⟨walked, directory⟩ := h
    obtain ⟨there, whole⟩ := pieces_of_absolute tree seen absolute
    rw [Path.origin_of_isAbsolute (isAbsolute_of_absolute seen), whole] at walked
    have origin : Path.origin fs.current path = fs.current := by
      rw [Path.origin, absolute, if_neg Bool.false_ne_true]
    exact ⟨by rw [origin, walk_of_names tree there walked], directory⟩

/-- What is on the way of a path once it is made absolute is on its way before, or the current
directory is in it. -/
theorem OnWay.of_absolute (tree : fs.IsTree) (seen : fs.absolute path = .ok base)
    (h : fs.OnWay base p) :
    fs.OnWay path p ∨ Path.isAbsolute path = false ∧ p <+: fs.current := by
  cases absolute : Path.isAbsolute path with
  | true => exact Or.inl (eq_of_absolute seen absolute ▸ h)
  | false =>
    obtain ⟨directory, front, part, walked⟩ := h
    obtain ⟨there, whole⟩ := pieces_of_absolute tree seen absolute
    rw [Path.origin_of_isAbsolute (isAbsolute_of_absolute seen)] at walked
    rw [whole] at part
    rcases List.prefix_or_prefix_of_prefix part (List.prefix_append _ _) with
      ⟨more, above⟩ | ⟨more, rfl⟩
    · refine Or.inr ⟨rfl, ?_⟩
      cases front with
      | nil =>
        obtain rfl := Except.ok.inj walked
        exact List.nil_prefix
      | cons first front =>
        obtain ⟨rfl, names⟩ := List.cons.inj above
        obtain ⟨holders, rest, split, rfl, _⟩ := List.map_eq_append_iff.mp names.symm
        have isPrefix : holders <+: fs.current := ⟨rest, split.symm⟩
        have holder := tree.directory_of_isPrefix isPrefix there
        rw [← List.append_nil (List.map _ _), ← List.cons_append] at walked
        exact Except.ok.inj (walk_of_names tree holder walked) ▸ isPrefix
    · rw [List.prefix_append_right_inj] at part
      have origin : Path.origin fs.current path = fs.current := by
        rw [Path.origin, absolute, if_neg Bool.false_ne_true]
      exact Or.inl ⟨directory, more, part, by rw [origin, walk_of_names tree there walked]⟩

end FileSystem

end BasicBlocks
