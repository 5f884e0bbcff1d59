import BasicBlocks.Proofs.Directories

/-!
# Removals

Removing what lies in a directory touches nothing else, and follows no link. What a path names in a
directory that is found lies there under that name.
-/

namespace BasicBlocks
namespace FileSystem

variable {fs fs' made : FileSystem} {place p : Location} {path : String}

/-! ## Removing what directories hold -/

theorem mem_names_iff {name : String} :
    name ∈ fs.names place ↔ ∃ entry, fs.get? (place ++ [name]) = some entry := by
  rw [get?_eq_some_iff_mem_keys (by simp), names, below]
  simp only [List.filterMap_filterMap, List.mem_filterMap, List.mem_map]
  constructor
  · rintro ⟨e, he, h⟩
    refine ⟨e, he, ?_⟩
    split at h
    next inside =>
      obtain ⟨rest, whole⟩ : place <+: e.1 := by
        simp only [Bool.and_eq_true] at inside
        exact List.isPrefixOf_iff_prefix.mp inside.1
      rw [Option.bind_some, ← whole, List.drop_left] at h
      split at h
      next single =>
        obtain rfl := Option.some.inj h
        exact whole ▸ congrArg (place ++ ·) single
      next => cases h
    next => cases h
  · rintro ⟨e, he, same⟩
    refine ⟨e, he, ?_⟩
    simp [same]

/-- Nothing has changed outside of a region. -/
structure ChangesWithin (region : Location → Prop) (fs changed : FileSystem) : Prop where
  current : changed.current = fs.current
  tree : fs.IsTree → changed.IsTree
  outside : ∀ p, ¬ region p → changed.get? p = fs.get? p

theorem ChangesWithin.refl (region : Location → Prop) (fs : FileSystem) :
    ChangesWithin region fs fs :=
  ⟨rfl, id, fun _ _ => rfl⟩

theorem ChangesWithin.trans {region : Location → Prop} (first : ChangesWithin region fs fs')
    (second : ChangesWithin region fs' made) : ChangesWithin region fs made where
  current := second.current.trans first.current
  tree := second.tree ∘ first.tree
  outside p h := (second.outside p h).trans (first.outside p h)

theorem ChangesWithin.mono {region region' : Location → Prop}
    (h : ChangesWithin region fs fs') (sub : ∀ p, region p → region' p) :
    ChangesWithin region' fs fs' :=
  { h with outside := fun p outside => h.outside p fun inside => outside (sub p inside) }

theorem changesWithin_put {name : String} (holder : fs.get? place = some .directory)
    (isName : IsName name) (vacant : fs.get? (place ++ [name]) = none) (entry : Entry) :
    ChangesWithin (Location.Below place) fs (fs.put (place ++ [name]) entry) where
  current := rfl
  tree h := h.put holder isName (by simp [vacant]) entry
  outside p h := by
    rw [get?_put fs _ p entry (by simp), if_neg]
    rintro rfl
    exact h ⟨List.prefix_append place [name], by simp⟩

/-- Some of what lies below a location is gone; nothing else has changed. -/
structure Clears (place : Location) (fs cleared : FileSystem) : Prop
    extends ChangesWithin (Location.Below place) fs cleared where
  fewer : cleared.KeptIn fs

theorem Clears.refl (place : Location) (fs : FileSystem) : Clears place fs fs :=
  ⟨.refl _ fs, fun _ _ h => h⟩

theorem Clears.trans (first : Clears place fs fs') (second : Clears place fs' made) :
    Clears place fs made where
  toChangesWithin := first.toChangesWithin.trans second.toChangesWithin
  fewer p entry h := first.fewer p entry (second.fewer p entry h)

theorem get?_prune_of_isPrefix {q : Location} (h : place <+: q) (more : q ≠ []) :
    (fs.prune place).get? q = none := by
  rw [get?_prune fs place q more, if_pos (List.isPrefixOf_iff_prefix.mpr h)]

theorem get?_prune_of_not_isPrefix {q : Location} (h : ¬ place <+: q) :
    (fs.prune place).get? q = fs.get? q := by
  by_cases root : q = []
  · rw [root, get?_root, get?_root]
  · rw [get?_prune fs place q root, if_neg (mt List.isPrefixOf_iff_prefix.mp h)]

theorem get?_prune_eq_some_iff (more : place ≠ []) {entry : Entry} :
    (fs.prune place).get? p = some entry ↔ fs.get? p = some entry ∧ ¬ place <+: p := by
  by_cases inside : place <+: p
  · have filled : p ≠ [] := fun none => more (List.prefix_nil.mp (none ▸ inside))
    simp [get?_prune_of_isPrefix inside filled, inside]
  · simp [get?_prune_of_not_isPrefix inside, inside]

theorem entryAt_eq_ok_iff {entry : Entry} :
    fs.entryAt path = .ok (place, entry) ↔
      fs.slot path = .ok place ∧ fs.get? place = some entry ∧
        (path.toList.getLast? = some '/' → entry = .directory) := by
  unfold entryAt
  cases fs.slot path with
  | error cause => simp [bind, Except.bind]
  | ok q =>
    dsimp only [bind, Except.bind]
    split
    next vacant => grind
    next directory => grind
    next other _ => grind

/-- A directory or a link is removed with what lies below, and no link is followed. -/
theorem removeDirectory_eq_ok_iff :
    fs.removeDirectory path = .ok made ↔
      ∃ place entry, fs.entryAt path = .ok (place, entry) ∧
        (∀ bytes executable, entry ≠ .file bytes executable) ∧ made = fs.prune place := by
  unfold removeDirectory
  rcases fs.entryAt path with cause | ⟨place, _ | ⟨bytes, executable⟩ | target⟩
  case ok.file =>
    refine iff_of_false (fun h => nomatch h) ?_
    rintro ⟨_, _, same, noFile, _⟩
    obtain ⟨rfl, rfl⟩ := Prod.mk.inj (Except.ok.inj same)
    exact noFile bytes executable rfl
  all_goals simp [bind, Except.bind, eq_comm]

theorem removeFile_eq_ok_iff :
    fs.removeFile path = .ok made ↔
      ∃ place entry, fs.entryAt path = .ok (place, entry) ∧ entry ≠ .directory ∧
        made = fs.prune place := by
  unfold removeFile
  rcases fs.entryAt path with cause | ⟨place, _ | ⟨bytes, executable⟩ | target⟩ <;>
    simp [bind, Except.bind, eq_comm]

theorem clears_prune (fs : FileSystem) (place : Location) (name : String) :
    Clears place fs (fs.prune (place ++ [name])) where
  current := rfl
  tree h := h.prune _
  fewer p entry h := get?_prune_eq_some h
  outside p h := by
    refine get?_prune_of_not_isPrefix fun inside => h ⟨?_, ?_⟩
    · exact (List.prefix_append place [name]).trans inside
    · rintro rfl
      have shorter := inside.length_le
      rw [List.length_append, List.length_singleton] at shorter
      omega

/-! ## Names in a directory that is found -/

section

variable {dir name : String} (isName : IsName name)

include isName

theorem namingPieces_join : namingPieces (Path.join dir name) = Path.stem dir ++ [name.toList] := by
  have named : name.toList ≠ [] := fun none => by simpa [none, Path.isVoid] using isName.notVoid
  rw [namingPieces, Path.pieces_join_eq isName.relative, isName.pieces]
  simp [named]

variable (filled : dir ≠ "")

include filled

/-- What a directory may hold under a name has its slot there. -/
theorem slot_join_iff :
    fs.slot (Path.join dir name) = .ok p ↔
      Path.IsUsable (Path.join dir name) ∧ Fits name.toList ∧
        ∃ place, fs.find dir = .ok (place, .directory) ∧ p = place ++ [name] := by
  have origin : Path.origin fs.current (Path.join dir name) = Path.origin fs.current dir := by
    rw [Path.origin, Path.isAbsolute_join_eq isName.relative]
    rfl
  rw [slot_eq_ok_iff, namingPieces_join isName, origin]
  refine and_congr_right fun usable => ?_
  constructor
  · rintro (⟨none, _⟩ | ⟨front, piece, place, last, walked, stepped⟩)
    · simp at none
    · obtain rfl := List.append_inj_left' last rfl
      obtain rfl : name.toList = piece := by simpa using last
      obtain ⟨holder, fits, rfl⟩ := walkStep_eq_ok_iff.mp stepped
      exact ⟨fits, place, find_eq_ok_iff.mpr
        ⟨usable.of_join filled isName.relative, (walk_stem_iff holder).mp walked, holder⟩,
        isName.step place⟩
  · rintro ⟨fits, place, found, rfl⟩
    obtain ⟨_, walked, holder⟩ := find_eq_ok_iff.mp found
    exact Or.inr ⟨_, _, place, rfl, (walk_stem_iff holder).mpr walked,
      walkStep_eq_ok_iff.mpr ⟨holder, fits, isName.step place⟩⟩

/-- What is removed under a name of a directory that is found lies there. -/
theorem entryAt_join_iff {entry : Entry} :
    fs.entryAt (Path.join dir name) = .ok (p, entry) ↔
      Path.IsUsable (Path.join dir name) ∧ Fits name.toList ∧
        ∃ place, fs.find dir = .ok (place, .directory) ∧ p = place ++ [name] ∧
          fs.get? p = some entry := by
  have noSlash : (Path.join dir name).toList.getLast? ≠ some '/' := by
    have named : name.toList ≠ [] := fun none => by simpa [none, Path.isVoid] using isName.notVoid
    have last : name.toList.getLast? ≠ some '/' := fun slash =>
      isName.noSlash (List.mem_of_getLast? slash)
    obtain whole | whole := Path.join_cases filled isName.relative <;>
      rw [whole, String.toList_append, List.getLast?_append_of_ne_nil]
    · exact last
    · exact named
    · rw [String.toList_append, List.getLast?_append_of_ne_nil _ named]
      exact last
    · simp
  rw [entryAt_eq_ok_iff, slot_join_iff isName filled]
  constructor
  · rintro ⟨⟨usable, fits, place, found, rfl⟩, there, _⟩
    exact ⟨usable, fits, place, found, rfl, there⟩
  · rintro ⟨usable, fits, place, found, rfl, there⟩
    exact ⟨⟨usable, fits, place, found, rfl⟩, there, fun slash => absurd slash noSlash⟩

/-- A name is found in a directory that is found, unless a link lies there. -/
theorem find_join_iff (found : fs.find dir = .ok (place, .directory))
    (noLink : fs.NoLink (place ++ [name])) {entry : Entry} :
    fs.find (Path.join dir name) = .ok (p, entry) ↔
      Path.IsUsable (Path.join dir name) ∧ Fits name.toList ∧ p = place ++ [name] ∧
        fs.get? p = some entry := by
  have slot (usable : Path.IsUsable (Path.join dir name)) (fits : Fits name.toList) :
      fs.slot (Path.join dir name) = .ok (place ++ [name]) :=
    (slot_join_iff isName filled).mpr ⟨usable, fits, place, found, rfl⟩
  constructor
  · intro held
    obtain ⟨usable, _, there⟩ := find_eq_ok_iff.mp held
    obtain ⟨q, _, slot', _⟩ := exists_slot_of_find held
    obtain ⟨_, fits, _⟩ := (slot_join_iff isName filled).mp slot'
    exact ⟨usable, fits, eq_of_find_of_slot (slot usable fits) noLink held, there⟩
  · rintro ⟨usable, fits, rfl, there⟩
    refine find_eq_ok_iff.mpr ⟨usable, ?_, there⟩
    have walked := walk_of_slot (slot usable fits) noLink
    rwa [namingPieces_join isName, ← isName.pieces,
      ← Path.pieces_join_eq isName.relative] at walked

end

end FileSystem
end BasicBlocks
