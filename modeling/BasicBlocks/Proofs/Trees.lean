import Mathlib.Data.List.Induction
import BasicBlocks.Proofs.Places

/-!
# Directory trees

In a directory tree whatever lies somewhere has a name and lies in a directory. A slot where no
directory is, is such a name, so whatever is put there leaves a tree.
-/

namespace BasicBlocks

namespace FileSystem

variable {fs fs' made : FileSystem} {place p : Location} {path : String}

theorem get?_eq_some_iff_mem_keys (more : place ≠ []) :
    (∃ entry, fs.get? place = some entry) ↔ place ∈ fs.entries.map (·.1) := by
  rw [get?, if_neg more]
  cases found : fs.entries.lookup place with
  | none =>
    rw [List.lookup_eq_none_iff] at found
    refine iff_of_false (by simp) fun h => ?_
    obtain ⟨e, he, rfl⟩ := List.mem_map.mp h
    simpa using found e he
  | some entry =>
    obtain ⟨before, after, whole, _⟩ := List.lookup_eq_some_iff.mp found
    exact iff_of_true ⟨entry, rfl⟩ (by simp [whole])

/-- The root is always a directory. -/
theorem ne_nil_of_not_directory (h : fs.get? place ≠ some .directory) : place ≠ [] := by
  rintro rfl
  exact h (get?_root fs)

theorem ne_nil_of_vacant (h : fs.get? place = none) : place ≠ [] := by
  rintro rfl
  simp [get?_root] at h

structure IsTree (fs : FileSystem) : Prop where
  parent : ∀ p name entry, fs.get? (p ++ [name]) = some entry → fs.get? p = some .directory
  named : ∀ p name entry, fs.get? (p ++ [name]) = some entry → IsName name

theorem IsTree.congr (tree : fs.IsTree) (same : ∀ p, made.get? p = fs.get? p) : made.IsTree :=
  ⟨fun p name entry there => (same p).trans (tree.parent p name entry ((same _).symm.trans there)),
    fun p name entry there => tree.named p name entry ((same _).symm.trans there)⟩

/-- It is enough to look at what is listed. -/
theorem isTree_of_entries (h : ∀ e ∈ fs.entries, fs.get? e.1.dropLast = some .directory ∧
    ∀ name ∈ e.1.getLast?, IsName name) : fs.IsTree := by
  have listed : ∀ p name entry, fs.get? (p ++ [name]) = some entry →
      fs.get? p = some .directory ∧ IsName name := by
    intro p name entry found
    obtain ⟨e, he, same⟩ := List.mem_map.mp
      ((get?_eq_some_iff_mem_keys (show p ++ [name] ≠ [] by simp)).mp ⟨entry, found⟩)
    obtain ⟨holder, named⟩ := h e he
    rw [same] at holder named
    exact ⟨by simpa using holder, named name (by simp)⟩
  exact ⟨fun p name entry found => (listed p name entry found).1,
    fun p name entry found => (listed p name entry found).2⟩

theorem IsTree.above (tree : fs.IsTree) {rest : Location} (more : rest ≠ []) {entry : Entry}
    (h : fs.get? (place ++ rest) = some entry) : fs.get? place = some .directory := by
  induction rest using List.reverseRecOn generalizing entry with
  | nil => exact absurd rfl more
  | append_singleton front name ih =>
    rw [← List.append_assoc] at h
    have parent := tree.parent _ name entry h
    by_cases last : front = []
    · simpa [last] using parent
    · exact ih last parent

theorem IsTree.exists_of_isPrefix (tree : fs.IsTree) (h : place <+: p) {entry : Entry}
    (found : fs.get? p = some entry) : ∃ held, fs.get? place = some held := by
  obtain ⟨rest, rfl⟩ := h
  by_cases last : rest = []
  · exact ⟨entry, by simpa [last] using found⟩
  · exact ⟨_, tree.above last found⟩

theorem IsTree.directory_of_isPrefix (tree : fs.IsTree) (h : place <+: p)
    (directory : fs.get? p = some .directory) : fs.get? place = some .directory := by
  obtain ⟨rest, rfl⟩ := h
  by_cases last : rest = []
  · simpa [last] using directory
  · exact tree.above last directory

theorem IsTree.dropLast (tree : fs.IsTree) (h : fs.get? place = some .directory) :
    fs.get? place.dropLast = some .directory := by
  rcases List.eq_nil_or_concat' place with rfl | ⟨front, name, rfl⟩
  · exact get?_root fs
  · rw [List.dropLast_concat]
    exact tree.parent front name .directory h

/-- Nothing lies below what is no directory. -/
theorem IsTree.vacant_below (tree : fs.IsTree) (h : fs.get? place ≠ some .directory)
    (below : Location.Below place p) : fs.get? p = none := by
  obtain ⟨⟨rest, rfl⟩, different⟩ := below
  cases found : fs.get? (place ++ rest) with
  | none => rfl
  | some entry =>
    have more : rest ≠ [] := fun none => different (by simp [none])
    exact absurd (tree.above more found) h

theorem IsTree.put (tree : fs.IsTree) {name : String} (holder : fs.get? place = some .directory)
    (isName : IsName name) (noDirectory : fs.get? (place ++ [name]) ≠ some .directory)
    (entry : Entry) : (fs.put (place ++ [name]) entry).IsTree := by
  have get : ∀ other, (fs.put (place ++ [name]) entry).get? other =
      if other = place ++ [name] then some entry else fs.get? other :=
    fun other => get?_put fs _ other entry (by simp)
  have kept : ∀ q, fs.get? q = some .directory →
      (fs.put (place ++ [name]) entry).get? q = some .directory := by
    intro q h
    rw [get, if_neg, h]
    rintro rfl
    exact noDirectory h
  constructor
  · intro q other e h
    rw [get] at h
    split at h
    next same =>
      obtain rfl : q = place := List.append_inj_left' same rfl
      exact kept q holder
    next => exact kept q (tree.parent q other e h)
  · intro q other e h
    rw [get] at h
    split at h
    next same =>
      have last := List.append_inj_right' same rfl
      exact (List.cons.inj last).1 ▸ isName
    next => exact tree.named q other e h

theorem get?_prune_eq_some {entry : Entry} (h : (fs.prune place).get? p = some entry) :
    fs.get? p = some entry := by
  by_cases root : p = []
  · rw [root, get?_root] at h ⊢
    exact h
  · rw [get?_prune fs place p root] at h
    split at h
    · cases h
    · exact h

theorem IsTree.prune (tree : fs.IsTree) (place : Location) : (fs.prune place).IsTree := by
  constructor
  · intro q name entry h
    have found := tree.parent q name entry (get?_prune_eq_some h)
    by_cases root : q = []
    · rw [root, get?_root]
    · rw [get?_prune fs place _ (by simp)] at h
      split at h
      · cases h
      next outside =>
        rw [get?_prune fs place q root, if_neg, found]
        intro inside
        exact outside (List.isPrefixOf_iff_prefix.mpr
          ((List.isPrefixOf_iff_prefix.mp inside).trans (List.prefix_append q [name])))
  · intro q name entry h
    exact tree.named q name entry (get?_prune_eq_some h)

/-! ## Slots -/

theorem exists_pieces_eq (path : String) :
    ∃ n, Path.pieces path = namingPieces path ++ List.replicate n [] := by
  unfold namingPieces
  induction Path.pieces path using List.reverseRecOn with
  | nil => exact ⟨0, rfl⟩
  | append_singleton front piece ih =>
    obtain ⟨n, whole⟩ := ih
    by_cases empty : piece = []
    · refine ⟨n + 1, ?_⟩
      rw [List.reverse_concat, List.dropWhile_cons_of_pos (by simp [empty]), List.replicate_succ',
        ← List.append_assoc, ← whole, empty]
    · exact ⟨0, by simp [empty]⟩

theorem namingPieces_isPrefix (path : String) : namingPieces path <+: Path.pieces path := by
  obtain ⟨n, whole⟩ := exists_pieces_eq path
  exact ⟨_, whole.symm⟩

theorem noSlash_of_mem_namingPieces {piece : List Char} (h : piece ∈ namingPieces path) :
    '/' ∉ piece :=
  Path.not_mem_of_mem_pieces ((namingPieces_isPrefix path).subset h)

/-- Empty pieces lead nowhere from a directory. -/
theorem walks_replicate (h : fs.get? place = some .directory) (n : Nat) :
    Walks fs 0 place (List.replicate n []) place := by
  induction n with
  | zero => exact .done place
  | succ n ih =>
    refine .step h (Or.inl rfl) ?_ ?_ <;> rw [Location.step_empty]
    · exact .of_directory h
    · exact ih

theorem Walks.eq_of_replicate {here : Location} {k n : Nat}
    (h : Walks fs k here (List.replicate n []) place) : k = 0 ∧ here = place := by
  induction n with
  | zero =>
    cases h
    exact ⟨rfl, rfl⟩
  | succ n ih =>
    rw [List.replicate_succ] at h
    cases h with
    | step _ _ _ later =>
      rw [Location.step_empty] at later
      exact ih later
    | link holder _ leads _ =>
      rw [Location.step_empty, holder] at leads
      cases leads

/-- A walk to a directory may go on along empty pieces. -/
theorem walk_append_replicate_iff {here : Location} {pieces : List (List Char)} {n : Nat}
    (directory : fs.get? place = some .directory) :
    fs.walk here (pieces ++ List.replicate n []) = .ok place ↔ fs.walk here pieces = .ok place := by
  simp only [walk_eq_ok_iff]
  constructor
  · rintro ⟨m, le, walks⟩
    obtain ⟨k, _, mid, rfl, front, back⟩ := walks.exists_of_append
    obtain ⟨rfl, rfl⟩ := back.eq_of_replicate
    exact ⟨k, by omega, front⟩
  · rintro ⟨m, le, walks⟩
    exact ⟨m, le, (Nat.zero_add m) ▸ walks.append (walks_replicate directory n)⟩

theorem walk_namingPieces_iff {here : Location} (directory : fs.get? place = some .directory) :
    fs.walk here (Path.pieces path) = .ok place ↔
      fs.walk here (namingPieces path) = .ok place := by
  obtain ⟨n, whole⟩ := exists_pieces_eq path
  rw [whole, walk_append_replicate_iff directory]

theorem walk_stem_iff {here : Location} (directory : fs.get? place = some .directory) :
    fs.walk here (Path.stem path) = .ok place ↔
      fs.walk here (Path.pieces path) = .ok place := by
  rcases Path.pieces_eq_stem path with whole | whole
  · rw [← whole]
  · rw [whole]
    exact (walk_append_replicate_iff (n := 1) directory).symm

/-- What is found at a path is found without the empty pieces at its end. -/
theorem walk_namingPieces_of_find {entry : Entry} (h : fs.find path = .ok (place, entry)) :
    fs.walk (Path.origin fs.current path) (namingPieces path) = .ok place := by
  obtain ⟨_, walked, _⟩ := find_eq_ok_iff.mp h
  obtain ⟨m, le, walks⟩ := walk_eq_ok_iff.mp walked
  obtain ⟨n, whole⟩ := exists_pieces_eq path
  rw [whole] at walks
  obtain ⟨k, _, mid, rfl, front, back⟩ := walks.exists_of_append
  obtain ⟨rfl, rfl⟩ := back.eq_of_replicate
  exact walk_eq_ok_iff.mpr ⟨k, by omega, front⟩

theorem find_eq_ok_directory_iff :
    fs.find path = .ok (place, .directory) ↔
      Path.IsUsable path ∧ fs.walk (Path.origin fs.current path) (namingPieces path) = .ok place ∧
        fs.get? place = some .directory := by
  rw [find_eq_ok_iff]
  exact and_congr_right fun _ => and_congr_left walk_namingPieces_iff

/-- A slot where no link lies is where the pieces lead that name it. -/
theorem walk_of_slot (h : fs.slot path = .ok place) (noLink : fs.NoLink place) :
    fs.walk (Path.origin fs.current path) (namingPieces path) = .ok place := by
  obtain ⟨_, ⟨none, rfl⟩ | ⟨front, piece, here, last, walked, stepped⟩⟩ := slot_eq_ok_iff.mp h
  · rw [none]
    exact walk_eq_ok_iff.mpr ⟨0, Nat.zero_le _, .done _⟩
  · obtain ⟨n, le, walks⟩ := walk_eq_ok_iff.mp walked
    obtain ⟨holder, fits, rfl⟩ := walkStep_eq_ok_iff.mp stepped
    rw [last]
    exact walk_eq_ok_iff.mpr
      ⟨n, le, (Nat.zero_add n) ▸ walks.append (.step holder fits noLink (.done _))⟩

theorem find_of_slot (h : fs.slot path = .ok place)
    (directory : fs.get? place = some .directory) : fs.find path = .ok (place, .directory) :=
  find_eq_ok_directory_iff.mpr
    ⟨(slot_eq_ok_iff.mp h).1, walk_of_slot h (.of_directory directory), directory⟩

/-- What is found at a path whose slot holds no link lies there. -/
theorem eq_of_find_of_slot {entry : Entry} {q : Location} (h : fs.slot path = .ok place)
    (noLink : fs.NoLink place) (found : fs.find path = .ok (q, entry)) : q = place :=
  Except.ok.inj ((walk_namingPieces_of_find found).symm.trans (walk_of_slot h noLink))

/-- Where something is found something lies at the slot, if only a link that leads there. -/
theorem exists_slot_of_find {entry : Entry} (h : fs.find path = .ok (place, entry)) :
    ∃ q held, fs.slot path = .ok q ∧ fs.get? q = some held := by
  obtain ⟨usable, _, there⟩ := find_eq_ok_iff.mp h
  have walked := walk_namingPieces_of_find h
  rcases List.eq_nil_or_concat' (namingPieces path) with none | ⟨front, piece, last⟩
  · rw [none] at walked
    obtain rfl := Except.ok.inj walked
    exact ⟨_, entry, slot_eq_ok_iff.mpr ⟨usable, Or.inl ⟨none, rfl⟩⟩, there⟩
  · rw [last] at walked
    obtain ⟨n, le, walks⟩ := walk_eq_ok_iff.mp walked
    obtain ⟨m, _, here, rfl, before, after⟩ := walks.exists_of_append
    have slot (holder : fs.get? here = some .directory) (fits : Fits piece) :
        fs.slot path = .ok (Location.step here piece) :=
      slot_eq_ok_iff.mpr ⟨usable, Or.inr ⟨front, piece, here, last,
        walk_eq_ok_iff.mpr ⟨m, by omega, before⟩, walkStep_eq_ok_iff.mpr ⟨holder, fits, rfl⟩⟩⟩
    cases after with
    | step holder fits _ later =>
      cases later
      exact ⟨_, entry, slot holder fits, there⟩
    | link holder fits leads _ => exact ⟨_, _, slot holder fits, leads⟩

theorem namingPieces_ne_nil (relative : Path.isAbsolute path = false) (filled : path ≠ "") :
    namingPieces path ≠ [] := by
  obtain ⟨piece, rest, whole, begins⟩ := Path.exists_pieces_of_relative relative filled
  obtain ⟨n, parts⟩ := exists_pieces_eq path
  intro none
  rw [none, List.nil_append, whole] at parts
  exact begins (List.eq_of_mem_replicate (parts ▸ List.mem_cons_self))

/-- Where nothing names a place, there is the root. -/
theorem origin_of_namingPieces_eq_nil (usable : Path.IsUsable path) (none : namingPieces path = [])
    (here : Location) : Path.origin here path = [] := by
  cases absolute : Path.isAbsolute path with
  | true => exact Path.origin_of_isAbsolute absolute here
  | false => exact absurd none (namingPieces_ne_nil absolute usable.filled)

/-! ## What lies in a directory -/

/-- A step to where no directory is, is a step to a name. -/
theorem IsTree.name_of_step (tree : fs.IsTree) {here : Location} {piece : List Char}
    (noSlash : '/' ∉ piece) (holder : fs.get? here = some .directory)
    (noDirectory : fs.get? (Location.step here piece) ≠ some .directory) :
    ∃ name, Location.step here piece = here ++ [name] ∧ IsName name := by
  unfold Location.step at noDirectory ⊢
  split at noDirectory
  next => exact absurd holder noDirectory
  next notVoid =>
    split at noDirectory
    next => exact absurd (tree.dropLast holder) noDirectory
    next notUp =>
      rw [if_neg notVoid, if_neg notUp]
      exact ⟨String.ofList piece, rfl,
        ⟨by simpa using notVoid, by simpa using notUp, by simpa using noSlash⟩⟩

/-- A slot where no directory is, is a name in a directory. -/
theorem IsTree.name_of_slot (tree : fs.IsTree) (h : fs.slot path = .ok place)
    (noDirectory : fs.get? place ≠ some .directory) :
    ∃ here name, place = here ++ [name] ∧ fs.get? here = some .directory ∧ IsName name := by
  obtain ⟨usable, ⟨none, rfl⟩ | ⟨front, piece, here, last, _, stepped⟩⟩ := slot_eq_ok_iff.mp h
  · rw [origin_of_namingPieces_eq_nil usable none] at noDirectory
    exact absurd (get?_root fs) noDirectory
  · obtain ⟨holder, _, rfl⟩ := walkStep_eq_ok_iff.mp stepped
    have noSlash : '/' ∉ piece :=
      noSlash_of_mem_namingPieces (show piece ∈ namingPieces path by simp [last])
    obtain ⟨name, arrives, isName⟩ := tree.name_of_step noSlash holder noDirectory
    exact ⟨here, name, arrives, holder, isName⟩

/-- So is the end of a walk, also where links have been followed. -/
theorem IsTree.name_of_walks (tree : fs.IsTree) {n : Nat} {here : Location}
    {pieces : List (List Char)} (h : Walks fs n here pieces place) (more : pieces ≠ [])
    (noSlash : ∀ piece ∈ pieces, '/' ∉ piece) (noDirectory : fs.get? place ≠ some .directory) :
    ∃ holder name, place = holder ++ [name] ∧ fs.get? holder = some .directory ∧ IsName name := by
  induction h with
  | done => exact absurd rfl more
  | @step n here place piece rest holder _ _ later ih =>
    have unmarked := List.forall_mem_cons.mp noSlash
    by_cases last : rest = []
    · subst last
      cases later
      obtain ⟨name, arrives, isName⟩ := tree.name_of_step unmarked.1 holder noDirectory
      exact ⟨here, name, arrives, holder, isName⟩
    · exact ih last unmarked.2 noDirectory
  | @link n here place piece rest target _ _ _ _ ih =>
    refine ih (List.append_ne_nil_of_left_ne_nil (Split.pieces_ne_nil _ _) _) ?_ noDirectory
    rw [List.forall_mem_append]
    exact ⟨fun _ member => Path.not_mem_of_mem_pieces member,
      (List.forall_mem_cons.mp noSlash).2⟩

theorem IsTree.put_slot (tree : fs.IsTree) (h : fs.slot path = .ok place)
    (noDirectory : fs.get? place ≠ some .directory) (entry : Entry) :
    (fs.put place entry).IsTree := by
  obtain ⟨here, name, rfl, holder, isName⟩ := tree.name_of_slot h noDirectory
  exact tree.put holder isName noDirectory entry

/-- A file is put where no directory is and no link. -/
theorem exists_of_write {contents : Utf8.Bytes} (h : fs.write path contents = .ok made) :
    ∃ place executable, Path.IsUsable path ∧
      fs.walk (Path.origin fs.current path) (namingPieces path) = .ok place ∧
        path.toList.getLast? ≠ some '/' ∧ fs.get? place ≠ some .directory ∧
          made = fs.put place (.file contents executable) := by
  unfold write at h
  cases walked : (fs.start path >>= fun here => fs.walk here (namingPieces path)) with
  | error cause =>
    rw [← bind_assoc, walked] at h
    cases h
  | ok place =>
    obtain ⟨usable, arrived⟩ := walk_start_eq_ok_iff.mp walked
    rw [← bind_assoc, walked] at h
    dsimp only [bind, Except.bind] at h
    split at h
    · cases h
    next noSlash =>
      split at h
      · cases h
      next bytes executable found =>
        exact ⟨place, executable, usable, arrived, noSlash, by simp [found],
          (Except.ok.inj h).symm⟩
      next other _ =>
        exact ⟨place, false, usable, arrived, noSlash, other, (Except.ok.inj h).symm⟩

theorem IsTree.of_write {contents : Utf8.Bytes} (tree : fs.IsTree)
    (h : fs.write path contents = .ok made) : made.IsTree := by
  obtain ⟨place, executable, usable, walked, _, noDirectory, rfl⟩ := exists_of_write h
  obtain ⟨n, _, walks⟩ := walk_eq_ok_iff.mp walked
  have more : namingPieces path ≠ [] := by
    intro none
    rw [none, origin_of_namingPieces_eq_nil usable none] at walks
    cases walks
    exact noDirectory (get?_root fs)
  obtain ⟨here, name, rfl, holder, isName⟩ :=
    tree.name_of_walks walks more (fun _ => noSlash_of_mem_namingPieces) noDirectory
  exact tree.put holder isName noDirectory _

theorem makeDirectory_eq_ok_iff :
    fs.makeDirectory path = .ok made ↔
      ∃ place, fs.slot path = .ok place ∧ fs.get? place = none ∧
        made = fs.put place .directory := by
  unfold makeDirectory
  cases fs.slot path with
  | error cause => simp [bind, Except.bind]
  | ok place =>
    dsimp only [bind, Except.bind]
    split
    next found => simp [found]
    next vacant => simp [vacant, eq_comm]

end FileSystem
end BasicBlocks
