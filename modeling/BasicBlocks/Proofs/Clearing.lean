import BasicBlocks.Scratch.Layout
import BasicBlocks.Proofs.Removals
import BasicBlocks.Proofs.Tasks

/-!
# Clearing

A clearing removes the entries of the tool's directory one by one, as far as that can be done, and
reports what it cannot remove. It changes nothing but what lies below the place where it finds that
directory, wherever a link may lead it, and where nothing is reported it leaves nothing there.
-/

namespace BasicBlocks

/-- What is reported when something is not removed that should be. -/
def Event.isRefusedRemoval : Event → Bool
  | .artifactsUnlistable .. => true
  | .artifactKept .. => true
  | .runDirectoryKept .. => true
  | _ => false

/-- Nothing that should have been removed has been kept. -/
def RemovalsSucceed (events : List Event) : Prop := ∀ e ∈ events, e.isRefusedRemoval = false

namespace Layout

open FileSystem (IsTree ChangesWithin Clears)

variable {fs fs' : FileSystem} {dir : String} {d p : Location}

/-- Whatever lies at the path is removed, with what lies below; a link is not followed. -/
theorem removeArtifact_eq_ok_iff {path : String} :
    removeArtifact fs path = .ok fs' ↔
      ∃ p entry, fs.entryAt path = .ok (p, entry) ∧ fs' = fs.prune p := by
  unfold removeArtifact
  constructor
  · intro h
    split at h
    · obtain ⟨p, entry, there, _, rfl⟩ := FileSystem.removeDirectory_eq_ok_iff.mp h
      exact ⟨p, entry, there, rfl⟩
    · obtain ⟨p, entry, there, _, rfl⟩ := FileSystem.removeFile_eq_ok_iff.mp h
      exact ⟨p, entry, there, rfl⟩
  · rintro ⟨p, entry, there, rfl⟩
    obtain ⟨slot, held, _⟩ := FileSystem.entryAt_eq_ok_iff.mp there
    split
    next directory =>
      refine FileSystem.removeDirectory_eq_ok_iff.mpr ⟨p, entry, there, ?_, rfl⟩
      -- A file would be found there, and no directory.
      rintro bytes executable rfl
      obtain ⟨q, found⟩ := FileSystem.isDirectory_iff.mp directory
      have noLink : fs.NoLink p := by simp [FileSystem.NoLink, held]
      obtain rfl := FileSystem.eq_of_find_of_slot slot noLink found
      have clash := held.symm.trans (FileSystem.find_eq_ok_iff.mp found).2.2
      cases clash
    next noDirectory =>
      refine FileSystem.removeFile_eq_ok_iff.mpr ⟨p, entry, there, ?_, rfl⟩
      rintro rfl
      exact noDirectory (FileSystem.isDirectory_iff.mpr ⟨p, FileSystem.find_of_slot slot held⟩)

theorem removeArtifacts_of_ok {path : String} (rest : List String)
    (h : removeArtifact fs path = .ok fs') :
    removeArtifacts (path :: rest) fs = removeArtifacts rest fs' :=
  Task.bind_of_silent (Task.outcome_change_of_ok h)

theorem removeArtifacts_of_error {path : String} (rest : List String) {cause : IoFault}
    (h : removeArtifact fs path = .error cause) :
    ∃ result, removeArtifacts (path :: rest) fs = ⟨(removeArtifacts rest fs).files,
      .artifactKept path cause :: (removeArtifacts rest fs).events, result⟩ := by
  rcases ended : removeArtifacts rest fs with ⟨files, events, impossible | n⟩
  · exact impossible.elim
  · refine ⟨.ok (n + 1), ?_⟩
    have reported : (Task.report (.artifactKept path cause) : Task Empty Unit) fs =
        ⟨fs, [.artifactKept path cause], .ok ()⟩ := rfl
    rw [removeArtifacts, Task.bind_of_silent (Task.outcome_change_of_error h)]
    refine (Task.bind_of_ok reported).trans ?_
    rw [Task.bind_of_ok ended]
    simp [pure]

section

variable (filled : dir ≠ "") (found : fs.find dir = .ok (d, .directory))

include filled found

/-- Where some is gone, what is removed under a name lies in the same directory. -/
theorem eq_prune_of_removeArtifact (clears : Clears d fs fs') {name : String} (isName : IsName name)
    {fewer : FileSystem} (h : removeArtifact fs' (Path.join dir name) = .ok fewer) :
    fewer = fs'.prune (d ++ [name]) := by
  obtain ⟨p, entry, there, rfl⟩ := removeArtifact_eq_ok_iff.mp h
  obtain ⟨_, _, place, found', rfl, _⟩ := (FileSystem.entryAt_join_iff isName filled).mp there
  have before : fs.find dir = .ok (place, .directory) :=
    FileSystem.find_of_kept clears.fewer (by rw [clears.current]) found'
  rw [FileSystem.find_unique found before]

theorem clears_removeArtifacts (clears : Clears d fs fs') {names : List String}
    (named : ∀ name ∈ names, IsName name) :
    Clears d fs (removeArtifacts (names.map (Path.join dir ·)) fs').files := by
  induction names generalizing fs' with
  | nil => exact clears
  | cons name rest ih =>
    obtain ⟨isName, named'⟩ := List.forall_mem_cons.mp named
    rw [List.map_cons]
    cases removed : removeArtifact fs' (Path.join dir name) with
    | ok fewer =>
      rw [removeArtifacts_of_ok _ removed]
      obtain rfl := eq_prune_of_removeArtifact filled found clears isName removed
      exact ih (clears.trans (FileSystem.clears_prune fs' d name)) named'
    | error cause =>
      obtain ⟨result, ended⟩ := removeArtifacts_of_error (rest.map (Path.join dir ·)) removed
      rw [ended]
      exact ih clears named'

/-- Nothing comes back while artifacts are removed. -/
theorem vacant_of_removeArtifacts (clears : Clears d fs fs') {names : List String}
    (named : ∀ name ∈ names, IsName name) (vacant : fs'.get? p = none) :
    (removeArtifacts (names.map (Path.join dir ·)) fs').files.get? p = none := by
  induction names generalizing fs' with
  | nil => exact vacant
  | cons name rest ih =>
    obtain ⟨isName, named'⟩ := List.forall_mem_cons.mp named
    rw [List.map_cons]
    cases removed : removeArtifact fs' (Path.join dir name) with
    | ok fewer =>
      rw [removeArtifacts_of_ok _ removed]
      obtain rfl := eq_prune_of_removeArtifact filled found clears isName removed
      have pruned := FileSystem.clears_prune fs' d name
      exact ih (clears.trans pruned) named' (pruned.fewer.vacant vacant)
    | error cause =>
      obtain ⟨result, ended⟩ := removeArtifacts_of_error (rest.map (Path.join dir ·)) removed
      rw [ended]
      exact ih clears named' vacant

/-- Where no removal is refused, each name is gone with all below it. -/
theorem removed_of_removeArtifacts (clears : Clears d fs fs') {names : List String}
    (named : ∀ name ∈ names, IsName name)
    (succeed : RemovalsSucceed (removeArtifacts (names.map (Path.join dir ·)) fs').events)
    {name : String} (member : name ∈ names) (below : d ++ [name] <+: p) :
    (removeArtifacts (names.map (Path.join dir ·)) fs').files.get? p = none := by
  induction names generalizing fs' with
  | nil => cases member
  | cons first rest ih =>
    obtain ⟨isName, named'⟩ := List.forall_mem_cons.mp named
    rw [List.map_cons] at succeed ⊢
    cases removed : removeArtifact fs' (Path.join dir first) with
    | ok fewer =>
      rw [removeArtifacts_of_ok _ removed] at succeed ⊢
      obtain rfl := eq_prune_of_removeArtifact filled found clears isName removed
      have clears' := clears.trans (FileSystem.clears_prune fs' d first)
      rcases List.mem_cons.mp member with rfl | member
      · refine vacant_of_removeArtifacts filled found clears' named'
          (FileSystem.get?_prune_of_isPrefix below ?_)
        rintro rfl
        simpa using below.length_le
      · exact ih clears' named' succeed member
    | error cause =>
      obtain ⟨result, ended⟩ := removeArtifacts_of_error (rest.map (Path.join dir ·)) removed
      rw [ended] at succeed
      exact absurd (succeed _ List.mem_cons_self) (by simp [Event.isRefusedRemoval])

end

/-- What a directory holds under this name can be removed. -/
structure IsRemovable (dir name : String) : Prop where
  isName : IsName name
  usable : Path.IsUsable (Path.join dir name)
  fits : FileSystem.Fits name.toList

/-- The directory is found there, whatever it holds. -/
def IsFoundAt (fs : FileSystem) (dir : String) (d : Location) : Prop :=
  ∀ fs', ChangesWithin (Location.Below d) fs fs' → fs'.find dir = .ok (d, .directory)

/-- What is left by a removal of names that can be removed, in whichever order. -/
theorem get?_removeArtifacts (filled : dir ≠ "") (found : IsFoundAt fs dir d)
    (clears : Clears d fs fs') (tree : fs'.IsTree) {names : List String}
    (named : ∀ name ∈ names, IsName name) {entry : Entry} :
    (removeArtifacts (names.map (Path.join dir ·)) fs').files.get? p = some entry ↔
      fs'.get? p = some entry ∧
        ∀ name ∈ names, IsRemovable dir name → ¬ d ++ [name] <+: p := by
  induction names generalizing fs' with
  | nil => simp [removeArtifacts, pure]
  | cons first rest ih =>
    obtain ⟨isName, named'⟩ := List.forall_mem_cons.mp named
    have here := found fs' clears.toChangesWithin
    rw [List.map_cons, List.forall_mem_cons]
    cases removed : removeArtifact fs' (Path.join dir first) with
    | ok fewer =>
      obtain ⟨q, held, there, rfl⟩ := removeArtifact_eq_ok_iff.mp removed
      obtain ⟨usable, fits, place, found', rfl, _⟩ :=
        (FileSystem.entryAt_join_iff isName filled).mp there
      obtain rfl := FileSystem.find_unique here found'
      rw [removeArtifacts_of_ok _ removed,
        ih (clears.trans (FileSystem.clears_prune fs' d first)) (tree.prune _) named',
        FileSystem.get?_prune_eq_some_iff (by simp)]
      have removable : IsRemovable dir first := ⟨isName, usable, fits⟩
      tauto
    | error cause =>
      obtain ⟨result, ended⟩ := removeArtifacts_of_error (rest.map (Path.join dir ·)) removed
      rw [ended]
      dsimp only
      rw [ih clears tree named']
      refine and_congr_right fun present => ⟨fun kept => ⟨?_, kept⟩, And.right⟩
      -- What is there could have been removed.
      rintro ⟨_, usable, fits⟩ inside
      obtain ⟨held, lies⟩ := tree.exists_of_isPrefix inside present
      have there := (FileSystem.entryAt_join_iff isName filled).mpr
        ⟨usable, fits, d, here, rfl, lies⟩
      exact nomatch removed.symm.trans (removeArtifact_eq_ok_iff.mpr ⟨_, _, there, rfl⟩)

/-- What a clearing does, by what is found at the layout's directory. -/
theorem clear_eq (l : Layout) (fs : FileSystem) :
    l.clear fs =
      match fs.list l.binaryDir with
      | .ok names => removeArtifacts (names.map (Path.join l.binaryDir ·)) fs
      | .error .notFound => ⟨fs, [], .ok 0⟩
      | .error cause => ⟨fs, [.artifactsUnlistable l.binaryDir cause], .ok 1⟩ := by
  rw [clear, Task.ask_bind]
  cases fs.list l.binaryDir with
  | ok names => rfl
  | error cause => cases cause <;> rfl

theorem list_eq_ok_iff {names : List String} :
    fs.list dir = .ok names ↔
      ∃ place, fs.find dir = .ok (place, .directory) ∧ names = fs.names place := by
  unfold FileSystem.list
  rcases fs.find dir with cause | ⟨p, _ | ⟨bytes, executable⟩ | target⟩ <;>
    simp [bind, Except.bind, eq_comm]

/-- Where there is no directory there is nothing to be cleared. -/
theorem clear_of_not_found (l : Layout)
    (nowhere : ∀ place, fs.find l.binaryDir ≠ .ok (place, .directory)) :
    (l.clear fs).files = fs := by
  rw [clear_eq]
  split
  next names listed =>
    obtain ⟨place, found, _⟩ := list_eq_ok_iff.mp listed
    exact absurd found (nowhere place)
  next => rfl
  next => rfl

theorem isName_of_mem_names (tree : fs.IsTree) : ∀ name ∈ fs.names d, IsName name := by
  intro name member
  obtain ⟨held, lies⟩ := FileSystem.mem_names_iff.mp member
  exact tree.named _ _ _ lies

section

variable {l : Layout}

theorem get?_clear (found : IsFoundAt fs l.binaryDir d) (tree : fs.IsTree) {entry : Entry} :
    (l.clear fs).files.get? p = some entry ↔
      fs.get? p = some entry ∧
        ∀ name, IsRemovable l.binaryDir name → ¬ d ++ [name] <+: p := by
  have here := found fs (.refl _ fs)
  have filled := (FileSystem.find_eq_ok_iff.mp here).1.filled
  rw [clear_eq, list_eq_ok_iff.mpr ⟨_, here, rfl⟩]
  dsimp only
  rw [get?_removeArtifacts filled found (.refl d fs) tree (isName_of_mem_names tree)]
  refine and_congr_right fun present => ⟨fun kept name removable inside => ?_,
    fun kept name _ => kept name⟩
  have listed := FileSystem.mem_names_iff.mpr (tree.exists_of_isPrefix inside present)
  exact kept name listed removable inside

/-- Below the directory that is found some is gone, and elsewhere nothing has changed. -/
theorem clears_clear (found : fs.find l.binaryDir = .ok (d, .directory)) (tree : fs.IsTree) :
    Clears d fs (l.clear fs).files := by
  have filled := (FileSystem.find_eq_ok_iff.mp found).1.filled
  rw [clear_eq, list_eq_ok_iff.mpr ⟨d, found, rfl⟩]
  exact clears_removeArtifacts filled found (.refl d fs) (isName_of_mem_names tree)

/-- Nothing is left below the directory that is found if no removal is refused. -/
theorem emptied_of_clear (found : fs.find l.binaryDir = .ok (d, .directory)) (tree : fs.IsTree)
    (succeed : RemovalsSucceed (l.clear fs).events) (below : Location.Below d p) :
    (l.clear fs).files.get? p = none := by
  have filled := (FileSystem.find_eq_ok_iff.mp found).1.filled
  have listed := list_eq_ok_iff.mpr ⟨d, found, rfl⟩
  have clears := clears_clear found tree
  cases left : (l.clear fs).files.get? p with
  | none => rfl
  | some entry =>
    -- What is left was there before, and so was the name in the directory that leads to it.
    obtain ⟨⟨rest, rfl⟩, different⟩ := below
    obtain ⟨name, rest, rfl⟩ := List.exists_cons_of_ne_nil (l := rest) (by
      rintro rfl
      simp at different)
    have before := clears.fewer _ entry left
    have named : ∃ held, fs.get? (d ++ [name]) = some held :=
      tree.exists_of_isPrefix ⟨rest, by simp⟩ before
    rw [clear_eq, listed] at succeed left
    have gone := removed_of_removeArtifacts filled found (.refl d fs) (isName_of_mem_names tree)
      succeed (FileSystem.mem_names_iff.mpr named) (p := d ++ name :: rest) ⟨rest, by simp⟩
    exact nomatch gone.symm.trans left

end

end Layout

end BasicBlocks
