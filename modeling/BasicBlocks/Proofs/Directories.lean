import BasicBlocks.Proofs.Trees

/-!
# Directories

The directories on the way of a path. Making directories keeps what is there, and adds nothing but
directories on the way.
-/

namespace BasicBlocks
namespace FileSystem

variable {fs fs' made : FileSystem} {place p : Location} {path : String}

/-! ## Ways to directories -/

/-- The directory that a path leads to, though it may be too long to be used, or empty. -/
structure LeadsTo (fs : FileSystem) (path : String) (place : Location) : Prop where
  walked : fs.walk (Path.origin fs.current path) (Path.pieces path) = .ok place
  directory : fs.get? place = some .directory

theorem LeadsTo.of_find (h : fs.find path = .ok (place, .directory)) : fs.LeadsTo path place := by
  obtain ⟨_, walked, directory⟩ := find_eq_ok_iff.mp h
  exact ⟨walked, directory⟩

theorem LeadsTo.unique (h : fs.LeadsTo path place) (h' : fs.LeadsTo path p) : place = p :=
  Except.ok.inj (h.walked.symm.trans h'.walked)

theorem LeadsTo.of_kept (current : fs'.current = fs.current) (kept : fs.KeptIn fs')
    (h : fs.LeadsTo path place) : fs'.LeadsTo path place := by
  have directory := kept place _ h.directory
  exact ⟨current ▸ walk_of_kept kept (.of_directory directory) h.walked, directory⟩

/-- A path joined to another leads on from the directory of that by its name, unless by a link. -/
theorem LeadsTo.of_join {dir name : String} (isName : IsName name)
    (h : fs.LeadsTo (Path.join dir name) p) :
    ∃ place, fs.LeadsTo dir place ∧ (fs.NoLink (place ++ [name]) → p = place ++ [name]) := by
  obtain ⟨walked, directory⟩ := h
  have origin : Path.origin fs.current (Path.join dir name) = Path.origin fs.current dir := by
    rw [Path.origin, Path.isAbsolute_join_eq isName.relative]
    rfl
  rw [origin, Path.pieces_join_eq isName.relative, isName.pieces] at walked
  obtain ⟨n, le, walks⟩ := walk_eq_ok_iff.mp walked
  obtain ⟨m, k, place, sum, front, last⟩ := walks.exists_of_append
  have holder := last.holder (List.cons_ne_nil _ _)
  refine ⟨place, ⟨(walk_stem_iff holder).mp (walk_eq_ok_iff.mpr ⟨m, by omega, front⟩), holder⟩,
    fun noLink => ?_⟩
  rw [← isName.step] at noLink ⊢
  cases last with
  | step _ _ _ done =>
    cases done
    rfl
  | link _ _ leads _ => exact absurd leads (noLink _)

/-- The way to a directory was there before, whatever has been added. -/
theorem directory_of_walk_front {here : Location} {front whole : List (List Char)}
    (kept : fs.KeptIn fs') (walked : fs.walk here whole = .ok place)
    (directory : fs.get? place = some .directory) (part : front <+: whole)
    (reached : fs'.walk here front = .ok p) : fs.get? p = some .directory := by
  obtain ⟨more, rfl⟩ := part
  obtain ⟨n, le, walks⟩ := walk_eq_ok_iff.mp walked
  obtain ⟨m, k, mid, sum, before, after⟩ := walks.exists_of_append
  have passed : fs.get? mid = some .directory := by
    by_cases last : more = []
    · subst last
      cases after
      exact directory
    · exact after.holder last
  have before' := before.of_kept kept (.of_directory (kept mid _ passed))
  obtain ⟨_, _, walks'⟩ := walk_eq_ok_iff.mp reached
  exact walks'.unique before' ▸ passed

/-! ## Making directories -/

/-- A directory that the walk along a path passes through, or comes to in the end. -/
structure OnWay (fs : FileSystem) (path : String) (p : Location) : Prop where
  directory : fs.get? p = some .directory
  reached : ∃ front, front <+: Path.pieces path ∧
    fs.walk (Path.origin fs.current path) front = .ok p

theorem OnWay.of_find (h : fs.find path = .ok (place, .directory)) : fs.OnWay path place := by
  obtain ⟨_, walked, directory⟩ := find_eq_ok_iff.mp h
  exact ⟨directory, _, List.prefix_refl _, walked⟩

theorem OnWay.of_kept (current : fs'.current = fs.current) (kept : fs.KeptIn fs')
    (h : fs.OnWay path p) : fs'.OnWay path p := by
  obtain ⟨directory, front, part, walked⟩ := h
  have directory' := kept p _ directory
  exact ⟨directory', front, part, current ▸ walk_of_kept kept (.of_directory directory') walked⟩

/-- It is passed on the way of every path that begins in the same way. -/
theorem OnWay.of_stem {above : String} (begins : Path.isAbsolute above = Path.isAbsolute path)
    (part : Path.stem above <+: Path.pieces path) (h : fs.OnWay above p) : fs.OnWay path p := by
  obtain ⟨directory, front, within, walked⟩ := h
  have origin : Path.origin fs.current above = Path.origin fs.current path := by
    rw [Path.origin, begins]
    rfl
  rw [origin] at walked
  refine ⟨directory, ?_⟩
  rcases Path.pieces_eq_stem above with whole | whole <;> rw [whole] at within
  · exact ⟨front, within.trans part, walked⟩
  · rcases List.prefix_concat_iff.mp within with rfl | short
    · exact ⟨_, part, (walk_append_replicate_iff (n := 1) directory).mp walked⟩
    · exact ⟨front, short.trans part, walked⟩

/-- The way of a path is part of that of a path joined to it. -/
theorem OnWay.join {left right : String} (relative : Path.isAbsolute right = false)
    (h : fs.OnWay left p) : fs.OnWay (Path.join left right) p := by
  refine h.of_stem (Path.isAbsolute_join_eq relative).symm ?_
  rw [Path.pieces_join_eq relative]
  exact List.prefix_append _ _

/-- Of a path joined to another the way ends one step after the other's. -/
theorem OnWay.of_join {dir name : String} (isName : IsName name)
    (h : fs.OnWay (Path.join dir name) p) :
    fs.OnWay dir p ∨ fs.LeadsTo (Path.join dir name) p := by
  obtain ⟨directory, front, part, walked⟩ := h
  have whole : Path.pieces (Path.join dir name) = Path.stem dir ++ Path.pieces name :=
    Path.pieces_join_eq isName.relative
  rw [whole, isName.pieces] at part
  rcases List.prefix_concat_iff.mp part with rfl | short
  · exact Or.inr ⟨by rw [whole, isName.pieces, walked], directory⟩
  · have origin : Path.origin fs.current (Path.join dir name) = Path.origin fs.current dir := by
      rw [Path.origin, Path.isAbsolute_join_eq isName.relative]
      rfl
    exact Or.inl ⟨directory, front, short.trans (Path.unslashed_isPrefix _), origin ▸ walked⟩

theorem OnWay.of_mem_ancestors {above : String} (h : above ∈ Path.ancestors path)
    (onWay : fs.OnWay above p) : fs.OnWay path p := by
  unfold Path.ancestors at h
  generalize (Path.components path).length + 1 = n at h
  induction n generalizing path with
  | zero => cases h
  | succ n ih =>
    rw [Path.ancestorsUpTo] at h
    rcases List.mem_cons.mp h with rfl | further
    · exact onWay
    · split at further
      next => cases further
      next parent up =>
        obtain ⟨begins, part⟩ := Path.stem_isPrefix_of_parent up
        exact (ih further).of_stem begins part

/-- The files with some directories more, on the ways of some paths. -/
structure Adds (paths : List String) (fs made : FileSystem) : Prop where
  current : made.current = fs.current
  tree : fs.IsTree → made.IsTree
  kept : fs.KeptIn made
  added : ∀ p, fs.get? p = none → made.get? p = none ∨ ∃ path ∈ paths, made.OnWay path p

section

variable {paths : List String}

theorem Adds.refl (paths : List String) (fs : FileSystem) : Adds paths fs fs :=
  ⟨rfl, id, .refl fs, fun _ h => Or.inl h⟩

theorem Adds.trans (first : Adds paths fs fs') (second : Adds paths fs' made) :
    Adds paths fs made where
  current := second.current.trans first.current
  tree := second.tree ∘ first.tree
  kept := first.kept.trans second.kept
  added p h := by
    rcases first.added p h with vacant | ⟨path, member, onWay⟩
    · exact second.added p vacant
    · exact Or.inr ⟨path, member, onWay.of_kept second.current second.kept⟩

/-- The ways may be parts of those of other paths. -/
theorem Adds.of_onWay {paths' : List String} (h : Adds paths fs made)
    (within : ∀ path ∈ paths, ∀ p, made.OnWay path p → ∃ path' ∈ paths', made.OnWay path' p) :
    Adds paths' fs made :=
  { h with
    added := fun p vacant => (h.added p vacant).imp_right fun ⟨path, member, onWay⟩ =>
      within path member p onWay }

theorem Adds.mono {paths' : List String} (h : Adds paths fs made) (sub : paths ⊆ paths') :
    Adds paths' fs made :=
  h.of_onWay fun path member _ onWay => ⟨path, sub member, onWay⟩

/-- What looks the same has the same directories added. -/
theorem Adds.congr (h : Adds paths fs fs') (current : made.current = fs'.current)
    (same : ∀ p, made.get? p = fs'.get? p) : Adds paths fs made where
  current := current.trans h.current
  tree isTree := (h.tree isTree).congr same
  kept p entry there := (same p).trans (h.kept p entry there)
  added p vacant := by
    rw [same p]
    refine (h.added p vacant).imp_right fun ⟨path, member, onWay⟩ => ⟨path, member, ?_⟩
    exact onWay.of_kept current fun q entry there => (same q).trans there

/-- A directory that is there although nothing was has been added on a way. -/
theorem Adds.exists_onWay (h : Adds paths fs made) (vacant : fs.get? p = none)
    (there : made.get? p = some .directory) : ∃ path ∈ paths, made.OnWay path p :=
  (h.added p vacant).resolve_left (by simp [there])

/-- Directories that are added are no links. -/
theorem Adds.noLink (h : Adds paths fs made) (noLink : fs.NoLink p) : made.NoLink p := by
  cases before : fs.get? p with
  | some entry =>
    rw [NoLink, before] at noLink
    rwa [NoLink, h.kept p entry before]
  | none =>
    rcases h.added p before with vacant | ⟨_, _, onWay⟩
    · exact .of_vacant vacant
    · exact .of_directory onWay.directory

end

theorem keptIn_put (vacant : fs.get? place = none) (entry : Entry) :
    fs.KeptIn (fs.put place entry) := by
  have notRoot : place ≠ [] := ne_nil_of_vacant vacant
  intro p held found
  rw [get?_put fs place p entry notRoot, if_neg, found]
  rintro rfl
  exact nomatch vacant.symm.trans found

/-- The directory that is made is found. -/
theorem find_put_slot (slot : fs.slot path = .ok place) (vacant : fs.get? place = none) :
    (fs.put place .directory).find path = .ok (place, .directory) := by
  have notRoot : place ≠ [] := ne_nil_of_vacant vacant
  have slot' : (fs.put place .directory).slot path = .ok place :=
    slot_of_kept (keptIn_put vacant .directory) rfl slot
  exact find_of_slot slot'
    (by rw [get?_put fs place place .directory notRoot, if_pos rfl])

theorem adds_of_makeDirectory (h : fs.makeDirectory path = .ok made) : Adds [path] fs made := by
  obtain ⟨place, slot, vacant, rfl⟩ := makeDirectory_eq_ok_iff.mp h
  have notRoot : place ≠ [] := ne_nil_of_vacant vacant
  have get := fun p => get?_put fs place p .directory notRoot
  refine ⟨rfl, fun tree => ?_, keptIn_put vacant .directory, fun p absent => ?_⟩
  · exact tree.put_slot slot (by simp [vacant]) .directory
  · by_cases same : p = place
    · subst same
      exact Or.inr ⟨path, List.mem_singleton_self path, .of_find (find_put_slot slot vacant)⟩
    · rw [get, if_neg same]
      exact Or.inl absent

/-- Makes a directory, unless there is one. -/
def makeHere (fs : FileSystem) (path : String) : FileSystem × Except IoFault Unit :=
  match fs.makeDirectory path with
  | .ok made => (made, .ok ())
  | .error .alreadyExists =>
    if fs.isDirectory path then (fs, .ok ()) else (fs, .error .alreadyExists)
  | .error cause => (fs, .error cause)

/-- The directories above are made only if the first of them has no place yet. -/
theorem makeFirst_cons (filled : path ≠ "") (above : List String) :
    fs.makeFirst (path :: above) =
      if fs.makeDirectory path = .error .notFound then
        match fs.makeFirst above with
        | (made, .error cause) => (made, .error cause)
        | (made, .ok ()) => made.makeHere path
      else fs.makeHere path := by
  rw [makeFirst, if_neg (by simpa using filled)]
  unfold makeHere
  cases fs.makeDirectory path with
  | ok made => rfl
  | error cause =>
    cases cause with
    | notFound =>
      rewrite [if_pos rfl]
      rcases fs.makeFirst above with ⟨opened, cause | _⟩
      · rfl
      · rcases made : opened.makeDirectory path with cause | _
        · cases cause <;> simp [made]
        · simp [made]
    | _ => rfl

theorem adds_of_makeHere : Adds [path] fs (fs.makeHere path).1 := by
  unfold makeHere
  split
  next made h => exact adds_of_makeDirectory h
  next => split <;> exact Adds.refl _ fs
  next => exact Adds.refl _ fs

theorem find_of_makeHere (h : (fs.makeHere path).2 = .ok ()) :
    ∃ place, (fs.makeHere path).1.find path = .ok (place, .directory) := by
  unfold makeHere at h ⊢
  split
  next made done =>
    obtain ⟨place, slot, vacant, rfl⟩ := makeDirectory_eq_ok_iff.mp done
    exact ⟨place, find_put_slot slot vacant⟩
  next exists_ =>
    rw [exists_] at h
    dsimp only at h
    split at h
    next directory =>
      rw [if_pos directory]
      exact isDirectory_iff.mp directory
    next => cases h
  next cause _ failed =>
    rw [failed] at h
    cases cause <;> simp_all

/-- What is a directory already is not made. -/
theorem makeDirectories_of_find (h : fs.find path = .ok (place, .directory)) :
    fs.makeDirectories path = (fs, .ok ()) := by
  have present : fs.makeDirectory path = .error .alreadyExists := by
    obtain ⟨q, held, slot, there⟩ := exists_slot_of_find h
    unfold makeDirectory
    rw [slot]
    dsimp only [bind, Except.bind]
    rw [there]
  have filled : path ≠ "" := (find_eq_ok_iff.mp h).1.filled
  obtain ⟨above, first⟩ : ∃ above, Path.ancestors path = path :: above := ⟨_, rfl⟩
  rw [makeDirectories, first, makeFirst_cons filled, present, if_neg (by simp), makeHere, present]
  exact if_pos (isDirectory_iff.mpr ⟨place, h⟩)

theorem adds_of_makeFirst (paths : List String) : Adds paths fs (fs.makeFirst paths).1 := by
  induction paths with
  | nil => exact Adds.refl [] fs
  | cons path above ih =>
    by_cases filled : path = ""
    · rw [makeFirst, if_pos (by simp [filled])]
      exact Adds.refl _ fs
    have later := ih.mono (List.subset_cons_self path above)
    have here : [path] ⊆ path :: above := by simp
    rw [makeFirst_cons filled]
    split
    next =>
      rcases ended : fs.makeFirst above with ⟨made, cause | _⟩ <;>
        rw [ended] at later
      · exact later
      · exact later.trans (adds_of_makeHere.mono here)
    next => exact adds_of_makeHere.mono here

theorem find_of_makeFirst {above : List String} (filled : path ≠ "")
    (h : (fs.makeFirst (path :: above)).2 = .ok ()) :
    ∃ place, (fs.makeFirst (path :: above)).1.find path = .ok (place, .directory) := by
  rw [makeFirst_cons filled] at h ⊢
  split
  next absent =>
    rw [if_pos absent] at h
    rcases ended : fs.makeFirst above with ⟨made, cause | _⟩ <;> rw [ended] at h
    · cases h
    · exact find_of_makeHere h
  next present =>
    rw [if_neg present] at h
    exact find_of_makeHere h

theorem adds_of_makeDirectories {result : Except IoFault Unit}
    (h : fs.makeDirectories path = (made, result)) : Adds [path] fs made := by
  have added : Adds (Path.ancestors path) fs (fs.makeDirectories path).1 :=
    adds_of_makeFirst (Path.ancestors path)
  rw [h] at added
  exact added.of_onWay fun above member _ onWay =>
    ⟨path, List.mem_singleton_self path, onWay.of_mem_ancestors member⟩

theorem find_of_makeDirectories (filled : path ≠ "")
    (h : fs.makeDirectories path = (made, .ok ())) :
    ∃ place, made.find path = .ok (place, .directory) := by
  obtain ⟨above, first⟩ : ∃ above, Path.ancestors path = path :: above := ⟨_, rfl⟩
  rw [makeDirectories, first] at h
  have found := find_of_makeFirst filled (congrArg Prod.snd h)
  rwa [h] at found

end FileSystem
end BasicBlocks
