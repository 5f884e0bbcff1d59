import BasicBlocks.Proofs.Sites

/-!
# Scratch space

How the making of scratch space ends, and what there is then. A run that shares its space finds the
tool's directory emptied; the root of a run's own is new, so there is nothing below it but the way
to the tool's directory. Either way nothing else has been made but the way to the scratch directory.
-/

namespace BasicBlocks

theorem Location.isAbsolute_path (place : Location) : Path.isAbsolute place.path = true := by
  cases place with
  | nil => rfl
  | cons name rest =>
    rw [Location.path, if_neg (List.cons_ne_nil name rest), Path.isAbsolute_iff]
    exact ⟨name.toList ++ (String.join (rest.map ("/" ++ ·))).toList, by simp⟩

/-- A path is made absolute as long as that can be done: it is as it was, or it is joined to the
path of the current directory. -/
theorem FileSystem.absolute_eq_ok_iff {fs : FileSystem} {path base : String} :
    fs.absolute path = .ok base ↔
      (Path.isAbsolute path = true ∧ base = path) ∨
        (Path.isAbsolute path = false ∧ fs.get? fs.current = some .directory ∧
          base = Path.join fs.current.path path) := by
  unfold absolute currentPath
  cases Path.isAbsolute path with
  | true => simp [pure, Except.pure, eq_comm]
  | false =>
    by_cases there : fs.get? fs.current = some .directory <;>
      simp [there, pure, Except.pure, bind, Except.bind, eq_comm]

theorem FileSystem.isAbsolute_of_absolute {fs : FileSystem} {path base : String}
    (h : fs.absolute path = .ok base) : Path.isAbsolute base = true := by
  rcases absolute_eq_ok_iff.mp h with ⟨absolute, rfl⟩ | ⟨_, _, rfl⟩
  · exact absolute
  · exact Path.isAbsolute_join path (Location.isAbsolute_path fs.current)

/-- As long as what is there is kept, a path is made absolute in the same way. -/
theorem FileSystem.absolute_of_kept {fs fs' : FileSystem} {path base : String}
    (current : fs'.current = fs.current) (kept : fs.KeptIn fs') (h : fs.absolute path = .ok base) :
    fs'.absolute path = .ok base := by
  rw [absolute_eq_ok_iff] at h ⊢
  rw [current]
  exact h.imp_right fun ⟨relative, there, joined⟩ => ⟨relative, kept _ _ there, joined⟩

namespace Layout

theorem instructionFacts_ofRoot (root tool : String) : (ofRoot root tool).instructionFacts =
    Path.join (ofRoot root tool).binaryDir instructionFactsName := by
  simp only [ofRoot]

theorem blockFacts_ofRoot (root tool : String) : (ofRoot root tool).blockFacts =
    Path.join (ofRoot root tool).binaryDir blockFactsName := by
  simp only [ofRoot]

theorem instructionFacts_ne_blockFacts (root tool : String) :
    (ofRoot root tool).instructionFacts ≠ (ofRoot root tool).blockFacts := by
  intro same
  rw [instructionFacts_ofRoot, blockFacts_ofRoot] at same
  have names : instructionFactsName = blockFactsName :=
    Path.join_right_injective (by decide) (by decide) same
  exact absurd names (by decide)

theorem isAbsolute_binaryDir {root : String} (tool : String) (h : Path.isAbsolute root = true) :
    Path.isAbsolute (ofRoot root tool).binaryDir = true :=
  Path.isAbsolute_join _ (Path.isAbsolute_join tool h)

end Layout

namespace RunScratch

/-- The path of a run's own root, beneath a base. -/
def ownRoot (base : String) (draw : Draw) : String := Path.join base (rootName draw)

/-- How the making of scratch space ends, beneath a base that is an absolute path. -/
inductive CreateEnds (fs : FileSystem) (base tool : String) (cleanup : Bool) (draw : Draw) :
    Bool → Ending Fault RunScratch → Prop
  | noBase {isolate : Bool} {made : FileSystem} {cause : IoFault}
      (failed : fs.makeDirectories base = (made, .error cause)) :
      CreateEnds fs base tool cleanup draw isolate ⟨made, [], .error (.scratch base cause)⟩
  | noRoot {made : FileSystem} {cause : IoFault}
      (based : fs.makeDirectories base = (made, .ok ()))
      (failed : made.makeDirectory (ownRoot base draw) = .error cause) :
      CreateEnds fs base tool cleanup draw true ⟨made, [], .error (.scratch base cause)⟩
  | noOwnLayout {made rooted opened : FileSystem} {cause : IoFault}
      (based : fs.makeDirectories base = (made, .ok ()))
      (owned : made.makeDirectory (ownRoot base draw) = .ok rooted)
      (failed : rooted.makeDirectories (Layout.ofRoot (ownRoot base draw) tool).binaryDir =
        (opened, .error cause)) :
      CreateEnds fs base tool cleanup draw true
        ⟨opened, [], .error (.scratch (Layout.ofRoot (ownRoot base draw) tool).binaryDir cause)⟩
  | isolated {made rooted opened : FileSystem}
      (based : fs.makeDirectories base = (made, .ok ()))
      (owned : made.makeDirectory (ownRoot base draw) = .ok rooted)
      (laidOut : rooted.makeDirectories (Layout.ofRoot (ownRoot base draw) tool).binaryDir =
        (opened, .ok ())) :
      CreateEnds fs base tool cleanup draw true
        ⟨opened, [], .ok ⟨.ofRoot (ownRoot base draw) tool, some (ownRoot base draw), cleanup⟩⟩
  | noSharedLayout {made opened : FileSystem} {cause : IoFault}
      (based : fs.makeDirectories base = (made, .ok ()))
      (failed : made.makeDirectories (Layout.ofRoot base tool).binaryDir =
        (opened, .error cause)) :
      CreateEnds fs base tool cleanup draw false
        ⟨opened, [], .error (.scratch (Layout.ofRoot base tool).binaryDir cause)⟩
  | shared {made opened : FileSystem}
      (based : fs.makeDirectories base = (made, .ok ()))
      (laidOut : made.makeDirectories (Layout.ofRoot base tool).binaryDir = (opened, .ok ())) :
      CreateEnds fs base tool cleanup draw false
        ⟨((Layout.ofRoot base tool).clear opened).files,
          ((Layout.ofRoot base tool).clear opened).events,
          .ok ⟨.ofRoot base tool, none, cleanup⟩⟩

/-- The task that makes directories, with the path in its faults. -/
theorem directories_eq {fs made : FileSystem} {path : String} {result : Except IoFault Unit}
    (h : fs.makeDirectories path = (made, result)) :
    (Task.changePartly fun fs => fs.makeDirectories path).mapFault (Fault.scratch path ·) fs =
      ⟨made, [], result.mapError (.scratch path ·)⟩ := by
  simp only [Task.mapFault, Task.changePartly, h]

theorem ensure_eq {l : Layout} {fs opened : FileSystem} {result : Except IoFault Unit}
    (h : fs.makeDirectories l.binaryDir = (opened, result)) :
    l.ensure fs = ⟨opened, [], result.mapError (.scratch l.binaryDir ·)⟩ :=
  directories_eq h

theorem makeRoot_eq (fs : FileSystem) (base : String) (draw : Draw) :
    (makeRoot base draw).mapFault (Fault.scratch base ·) fs =
      match fs.makeDirectory (ownRoot base draw) with
      | .ok made => ⟨made, [], .ok (ownRoot base draw)⟩
      | .error cause => ⟨fs, [], .error (.scratch base cause)⟩ := by
  simp only [Task.mapFault, makeRoot, bind, Task.change]
  rw [ownRoot]
  cases fs.makeDirectory (Path.join base (rootName draw)) with
  | ok made => rfl
  | error cause => rfl

theorem absolute_eq {fs : FileSystem} {base : String} {result : Except IoFault String}
    (h : fs.absolute base = result) :
    (Task.tell fun fs => fs.absolute base).mapFault (Fault.scratch base ·) fs =
      ⟨fs, [], result.mapError (.scratch base ·)⟩ := by
  simp only [Task.mapFault, Task.tell, h]

/-- Nothing is made where the current directory is gone that the path is to be seen from. -/
theorem create_of_no_current {fs : FileSystem} {dir : String} {cause : IoFault}
    (gone : fs.absolute dir = .error cause) (tool : String) (isolate cleanup : Bool)
    (draw : Draw) :
    create dir tool isolate cleanup draw fs = ⟨fs, [], .error (.scratch dir cause)⟩ :=
  Task.bind_of_error (absolute_eq gone)

theorem create_ends {fs : FileSystem} {dir base : String} (seen : fs.absolute dir = .ok base)
    (tool : String) (isolate cleanup : Bool) (draw : Draw) :
    CreateEnds fs base tool cleanup draw isolate (create dir tool isolate cleanup draw fs) := by
  unfold create
  rw [Task.bind_of_silent (absolute_eq seen)]
  rcases based : fs.makeDirectories base with ⟨made, cause | _⟩
  · rw [Task.bind_of_error (directories_eq based)]
    exact .noBase based
  · rw [Task.bind_of_silent (directories_eq based)]
    cases isolate with
    | true =>
      rw [if_pos rfl]
      have root := makeRoot_eq made base draw
      cases owned : made.makeDirectory (ownRoot base draw) with
      | error cause =>
        rw [owned] at root
        rw [Task.bind_of_error root]
        exact .noRoot based owned
      | ok rooted =>
        rw [owned] at root
        rw [Task.bind_of_silent root]
        rcases laidOut : rooted.makeDirectories
          (Layout.ofRoot (ownRoot base draw) tool).binaryDir with ⟨opened, cause | _⟩
        · rw [Task.bind_of_error (ensure_eq laidOut)]
          exact .noOwnLayout based owned laidOut
        · rw [Task.bind_of_silent (ensure_eq laidOut)]
          exact .isolated based owned laidOut
    | false =>
      rw [if_neg Bool.false_ne_true]
      rcases laidOut : made.makeDirectories (Layout.ofRoot base tool).binaryDir with
        ⟨opened, cause | _⟩
      · rw [Task.bind_of_error (ensure_eq laidOut)]
        exact .noSharedLayout based laidOut
      · rw [Task.bind_of_silent (ensure_eq laidOut), Task.infallible_bind_pure]
        exact .shared based laidOut

section

variable {fs : FileSystem} {dir tool : String} {isolate cleanup : Bool} {draw : Draw}

theorem scratch_of_create_error {fault : Fault}
    (h : (create dir tool isolate cleanup draw fs).result = .error fault) :
    ∃ path cause, fault = .scratch path cause := by
  cases seen : fs.absolute dir with
  | error cause =>
    rw [create_of_no_current seen] at h
    exact ⟨_, _, (Except.error.inj h).symm⟩
  | ok base =>
    have ends := create_ends seen tool isolate cleanup draw
    generalize create dir tool isolate cleanup draw fs = ending at ends h
    cases ends <;> cases h <;> exact ⟨_, _, rfl⟩

/-- Scratch space is made below a base that is an absolute path. -/
theorem exists_base_of_create {r : RunScratch}
    (h : (create dir tool isolate cleanup draw fs).result = .ok r) :
    ∃ base, fs.absolute dir = .ok base := by
  cases seen : fs.absolute dir with
  | error cause =>
    rw [create_of_no_current seen] at h
    cases h
  | ok base => exact ⟨base, rfl⟩

theorem layout_of_create {r : RunScratch}
    (h : (create dir tool isolate cleanup draw fs).result = .ok r) :
    ∃ root, r.layout = Layout.ofRoot root tool := by
  obtain ⟨base, seen⟩ := exists_base_of_create h
  have ends := create_ends seen tool isolate cleanup draw
  generalize create dir tool isolate cleanup draw fs = ending at ends h
  cases ends <;> cases h <;> exact ⟨_, rfl⟩

end

/-! ## A run's own root -/

theorem isRunName_rootName (draw : Draw) : IsRunName (rootName draw) := ⟨draw, rfl⟩

section

open FileSystem (IsTree Adds ChangesWithin)

variable {made rooted opened : FileSystem} {base tool : String} {draw : Draw} {place d p : Location}
  {result : Except IoFault Unit} (tree : made.IsTree)
  (found : made.find base = .ok (place, .directory))
  (owned : made.makeDirectory (ownRoot base draw) = .ok rooted)

include found owned

/-- The root is new, and lies in the scratch directory. -/
theorem rooted_eq : made.slot (ownRoot base draw) = .ok (place ++ [rootName draw]) ∧
    made.get? (place ++ [rootName draw]) = none ∧
      rooted = made.put (place ++ [rootName draw]) .directory := by
  obtain ⟨q, slot, vacant, rfl⟩ := FileSystem.makeDirectory_eq_ok_iff.mp owned
  have filled := (FileSystem.find_eq_ok_iff.mp found).1.filled
  obtain ⟨_, _, place', found', rfl⟩ :=
    (FileSystem.slot_join_iff (isName_rootName draw) filled).mp slot
  obtain rfl := FileSystem.find_unique found found'
  exact ⟨slot, vacant, rfl⟩

theorem get?_rooted (p : Location) : rooted.get? p =
    if p = place ++ [rootName draw] then some .directory else made.get? p := by
  obtain ⟨_, _, rfl⟩ := rooted_eq found owned
  exact FileSystem.get?_put made _ p .directory (by simp)

/-- As long as all else is kept, the root is nowhere else. -/
theorem slot_ownRoot {fs : FileSystem} (absolute : Path.isAbsolute base = true)
    (kept : made.KeptIn fs) : fs.slot (ownRoot base draw) = .ok (place ++ [rootName draw]) := by
  have absolute' := Path.isAbsolute_join (rootName draw) absolute
  refine FileSystem.slot_of_kept kept ?_ (rooted_eq found owned).1
  rw [ownRoot, Path.origin_of_isAbsolute absolute', Path.origin_of_isAbsolute absolute']

theorem isFree_root : Site.IsFree ⟨made, tree, place⟩ (rootName draw) where
  isRunName := isRunName_rootName draw
  vacant := (rooted_eq found owned).2.1

variable (absolute : Path.isAbsolute base = true) (descends : Path.Descends tool)
  (laidOut : rooted.makeDirectories (Layout.ofRoot (ownRoot base draw) tool).binaryDir =
    (opened, result))

theorem isOpen_rooted : Site.IsOpen ⟨made, tree, place⟩ (rootName draw) rooted :=
  (Site.isOpen_files (isFree_root tree found owned)).of_adds
    (FileSystem.adds_of_makeDirectory owned)

include laidOut

theorem isOpen_opened : Site.IsOpen ⟨made, tree, place⟩ (rootName draw) opened :=
  (isOpen_rooted tree found owned).of_adds (FileSystem.adds_of_makeDirectories laidOut)

theorem get?_opened_root : opened.get? (place ++ [rootName draw]) = some .directory :=
  (FileSystem.adds_of_makeDirectories laidOut).kept _ _
    (by rw [get?_rooted found owned, if_pos rfl])

include tree absolute descends

/-- Nothing has been added but on the way down from the root. -/
theorem changesWithin_opened :
    ChangesWithin (fun p => place ++ [rootName draw] <+: p ∧
      p <+: Location.along (place ++ [rootName draw]) (Layout.toolSteps tool)) rooted opened :=
  Site.changesWithin_makeDirectories (s := ⟨made, tree, place⟩) ⟨absolute, found⟩
    (isOpen_rooted tree found owned) (isRunName_rootName draw)
    (Layout.leads_binaryDir _ (isName_rootName draw) descends) laidOut

theorem get?_opened_outside (outside : ¬ place ++ [rootName draw] <+: p) :
    opened.get? p = made.get? p := by
  have unchanged := (changesWithin_opened tree found owned absolute descends laidOut).outside p
    fun inside => outside inside.1
  rw [unchanged, get?_rooted found owned, if_neg]
  rintro rfl
  exact outside (List.prefix_refl _)

/-- The tool's directory is empty. -/
theorem get?_opened_below
    (there : opened.find (Layout.ofRoot (ownRoot base draw) tool).binaryDir = .ok (d, .directory))
    (below : Location.Below d p) : opened.get? p = none := by
  have arrives : d = Location.along (place ++ [rootName draw]) (Layout.toolSteps tool) :=
    Site.eq_along_of_find (s := ⟨made, tree, place⟩) ⟨absolute, found⟩
      (isOpen_opened tree found owned laidOut) (isRunName_rootName draw)
      (Layout.leads_binaryDir _ (isName_rootName draw) descends) there
  have changes := changesWithin_opened tree found owned absolute descends laidOut
  have noUp := (Layout.leads_binaryDir base (isName_rootName draw) descends).noUp
  have under : place ++ [rootName draw] <+: d := arrives ▸ Location.isPrefix_along noUp _
  rw [← arrives] at changes
  rw [changes.outside p fun inside => below.2 (inside.2.eq_of_length_le below.1.length_le),
    get?_rooted found owned, if_neg]
  · exact (isFree_root tree found owned).get?_eq_none (under.trans below.1)
  · rintro rfl
    exact below.2 (below.1.eq_of_length_le under.length_le).symm

end

/-- Scratch space that could be made has a layout below an absolute path, and the tool's directory
is empty where it is found: it is new, or it has been cleared. -/
theorem emptied_of_create {fs created : FileSystem} {dir tool : String} {isolate cleanup : Bool}
    {draw : Draw} {events : List Event} {r : RunScratch} (tree : fs.IsTree)
    (descends : Path.Descends tool)
    (h : create dir tool isolate cleanup draw fs = ⟨created, events, .ok r⟩)
    (succeed : RemovalsSucceed events) :
    ∃ root, Path.isAbsolute root = true ∧ r.layout = .ofRoot root tool ∧
      ∀ place, created.find r.layout.binaryDir = .ok (place, .directory) →
        ∀ p, Location.Below place p → created.get? p = none := by
  obtain ⟨base, seen⟩ := exists_base_of_create (congrArg Ending.result h)
  have ends := create_ends seen tool isolate cleanup draw
  have absolute := FileSystem.isAbsolute_of_absolute seen
  have filled := Path.ne_empty_of_isAbsolute absolute
  rw [h] at ends
  cases ends with
  | isolated based owned laidOut =>
    have madeTree := (FileSystem.adds_of_makeDirectories based).tree tree
    obtain ⟨place, found⟩ := FileSystem.find_of_makeDirectories filled based
    exact ⟨_, Path.isAbsolute_join _ absolute, rfl, fun d there p below =>
      get?_opened_below madeTree found owned absolute descends laidOut there below⟩
  | shared based laidOut =>
    have absolute' := Layout.isAbsolute_binaryDir tool absolute
    have openedTree := (FileSystem.adds_of_makeDirectories laidOut).tree
      ((FileSystem.adds_of_makeDirectories based).tree tree)
    obtain ⟨d, found⟩ := FileSystem.find_of_makeDirectories
      (Path.ne_empty_of_isAbsolute absolute') laidOut
    have clears := Layout.clears_clear found openedTree
    refine ⟨base, absolute, rfl, fun place there p below => ?_⟩
    have before := FileSystem.find_of_kept clears.fewer (by rw [clears.current]) there
    obtain rfl := FileSystem.find_unique found before
    exact Layout.emptied_of_clear found openedTree succeed below

end RunScratch
end BasicBlocks
