import BasicBlocks.Proofs.Footprint

/-!
# Bystanders

What a run leaves where its tool does nothing. Whichever way the run ends, and whatever it fails to
remove, only its scratch space can make a difference there: a directory may be made where nothing
was, and what lay in a directory that runs share may be gone.
-/

namespace BasicBlocks

open FileSystem (ChangesWithin IsTree Adds Clears)

variable {fs made : FileSystem} {p : Location}

namespace FileSystem

/-! ## Where something is removed -/

theorem Clears.get?_or {place : Location} (h : Clears place fs made) (p : Location) :
    made.get? p = fs.get? p ∨ made.get? p = none ∧ Location.Below place p := by
  by_cases below : Location.Below place p
  · cases found : made.get? p with
    | none => exact Or.inr ⟨rfl, below⟩
    | some entry => exact Or.inl (h.fewer p entry found).symm
  · exact Or.inl (h.outside p below)

theorem get?_removeDirectory_or {path : String} (h : fs.removeDirectory path = .ok made)
    (p : Location) :
    made.get? p = fs.get? p ∨
      made.get? p = none ∧ ∃ place, fs.slot path = .ok place ∧ place <+: p := by
  obtain ⟨place, entry, there, _, rfl⟩ := removeDirectory_eq_ok_iff.mp h
  obtain ⟨slot, _, _⟩ := entryAt_eq_ok_iff.mp there
  by_cases inside : place <+: p
  · by_cases root : p = []
    · exact Or.inl (by rw [root, get?_root, get?_root])
    · exact Or.inr ⟨get?_prune_of_isPrefix inside root, place, slot, inside⟩
  · exact Or.inl (get?_prune_of_not_isPrefix inside)

end FileSystem

namespace RunScratch

/-- A root that cannot be removed is kept, with the tool's directory cleared. -/
theorem release_own_kept {l : Layout} {root : String} {cause : IoFault}
    (h : (l.clear fs).files.removeDirectory root = .error cause) :
    release ⟨l, some root, true⟩ fs =
      ⟨(l.clear fs).files, (l.clear fs).events ++ [.runDirectoryKept root cause], .ok ()⟩ := by
  rcases cleared : l.clear fs with ⟨files, events, impossible | n⟩
  · exact impossible.elim
  · rw [cleared] at h
    refine (Task.bind_of_ok cleared).trans ?_
    dsimp only
    rw [Task.bind_of_silent (Task.outcome_change_of_error h)]
    rfl

/-! ## Releases -/

/-- Where the release of scratch space may remove something: below the tool's directory, and where
the run's own root is. -/
def Reaches (r : RunScratch) (fs : FileSystem) (p : Location) : Prop :=
  (∃ d, fs.find r.layout.binaryDir = .ok (d, .directory) ∧ Location.Below d p) ∨
    ∃ root place, r.ownedRoot = some root ∧ fs.slot root = .ok place ∧ place <+: p

theorem clear_get?_or (l : Layout) (tree : fs.IsTree) (p : Location) :
    (l.clear fs).files.current = fs.current ∧ (l.clear fs).files.KeptIn fs ∧
      ((l.clear fs).files.get? p = fs.get? p ∨ (l.clear fs).files.get? p = none ∧
        ∃ d, fs.find l.binaryDir = .ok (d, .directory) ∧ Location.Below d p) := by
  by_cases reached : ∃ d, fs.find l.binaryDir = .ok (d, .directory)
  · obtain ⟨d, found⟩ := reached
    have clears := Layout.clears_clear found tree
    exact ⟨clears.current, clears.fewer,
      (clears.get?_or p).imp_right (And.imp_right fun below => ⟨d, found, below⟩)⟩
  · rw [Layout.clear_of_not_found l fun d found => reached ⟨d, found⟩]
    exact ⟨rfl, .refl fs, Or.inl rfl⟩

theorem get?_release_or {r : RunScratch} (tree : fs.IsTree) (p : Location) :
    (r.release fs).files.get? p = fs.get? p ∨
      (r.release fs).files.get? p = none ∧ r.Reaches fs p := by
  obtain ⟨l, ownedRoot, cleanup⟩ := r
  cases cleanup with
  | false => exact Or.inl rfl
  | true =>
    obtain ⟨current, fewer, cleared⟩ := clear_get?_or l tree p
    have reaches := fun h => (Or.inl h : Reaches ⟨l, ownedRoot, true⟩ fs p)
    cases ownedRoot with
    | none =>
      rw [release_shared]
      exact cleared.imp_right (And.imp_right reaches)
    | some root =>
      cases removed : (l.clear fs).files.removeDirectory root with
      | ok left =>
        rw [release_own removed]
        rcases FileSystem.get?_removeDirectory_or removed p with same | ⟨gone, place, slot, inside⟩
        · rw [same]
          exact cleared.imp_right (And.imp_right reaches)
        · have slot' := FileSystem.slot_of_kept fewer (by rw [current]) slot
          exact Or.inr ⟨gone, Or.inr ⟨root, place, rfl, slot', inside⟩⟩
      | error cause =>
        rw [release_own_kept removed]
        exact cleared.imp_right (And.imp_right reaches)

end RunScratch

/-! ## Runs -/

namespace Extractor

variable {x : Extractor} {draw : Draw} {base : String}

/-- The root of a run's scratch space, in the scratch directory as the run sees it. -/
def runRoot (x : Extractor) (draw : Draw) (base : String) : String :=
  if x.config.isolateRuns then RunScratch.ownRoot base draw else base

/-- The tool's directory in a run's scratch space. -/
def runDir (x : Extractor) (draw : Draw) (base : String) : String :=
  (Layout.ofRoot (x.runRoot draw base) x.tool.name).binaryDir

/-- Directories have been made on the way to a run's tool directory: in a space that runs share, or
in a root of the run's own, which is new. -/
inductive Opens (x : Extractor) (draw : Draw) (base : String) (fs : FileSystem) :
    FileSystem → Prop
  | shared {opened : FileSystem} (shared : x.config.isolateRuns = false)
      (added : fs.Adds [base, x.runDir draw base] opened) : Opens x draw base fs opened
  | own {based opened : FileSystem} {place : Location} (isolated : x.config.isolateRuns = true)
      (first : fs.Adds [base] based) (found : based.find base = .ok (place, .directory))
      (vacant : based.get? (place ++ [RunScratch.rootName draw]) = none)
      (added : based.Adds [x.runRoot draw base, x.runDir draw base] opened) :
      Opens x draw base fs opened

theorem Opens.kept (h : x.Opens draw base fs made) : fs.KeptIn made := by
  cases h with
  | shared _ added => exact added.kept
  | own _ first _ _ added => exact first.kept.trans added.kept

theorem Opens.tree (h : x.Opens draw base fs made) (tree : fs.IsTree) : made.IsTree := by
  cases h with
  | shared _ added => exact added.tree tree
  | own _ first _ _ added => exact added.tree (first.tree tree)

/-- Where there was nothing before there is nothing still, or a directory. -/
theorem Opens.directory (h : x.Opens draw base fs made) (vacant : fs.get? p = none) :
    made.get? p = none ∨ made.get? p = some .directory := by
  have new : ∀ {paths : List String} {fs made : FileSystem}, fs.Adds paths made →
      fs.get? p = none → made.get? p = none ∨ made.get? p = some .directory :=
    fun added absent => (added.added p absent).imp_right fun ⟨_, _, onWay⟩ => onWay.directory
  cases h with
  | shared _ added => exact new added vacant
  | own _ first _ _ added =>
    rcases new first vacant with absent | there
    · exact new added absent
    · exact Or.inr (added.kept p _ there)

/-- What a run leaves where its tool does nothing, whatever the name of the tool: what was there; or
a directory where nothing was, on the way to its scratch space; or nothing below the tool's
directory. -/
inductive EndsAt (x : Extractor) (draw : Draw) (fs : FileSystem) (p : Location) :
    Option Entry → Prop
  | same : EndsAt x draw fs p (fs.get? p)
  | made {base : String} {made : FileSystem} (seen : fs.absolute x.config.scratchDir = .ok base)
      (opens : fs.Adds [base] made ∨ x.Opens draw base fs made)
      (vacant : fs.get? p = none) (there : made.get? p = some .directory) :
      EndsAt x draw fs p (some .directory)
  | cleared {base : String} {opened : FileSystem} {d : Location}
      (seen : fs.absolute x.config.scratchDir = .ok base) (opens : x.Opens draw base fs opened)
      (found : opened.find (x.runDir draw base) = .ok (d, .directory))
      (below : Location.Below d p) : EndsAt x draw fs p none

theorem EndsAt.of_opens (seen : fs.absolute x.config.scratchDir = .ok base)
    (opens : fs.Adds [base] made ∨ x.Opens draw base fs made) :
    x.EndsAt draw fs p (made.get? p) := by
  cases before : fs.get? p with
  | some entry =>
    rw [opens.elim (·.kept p entry before) (·.kept p entry before), ← before]
    exact .same
  | none =>
    have new : made.get? p = none ∨ made.get? p = some .directory :=
      opens.elim (fun added => (added.added p before).imp_right fun ⟨_, _, onWay⟩ =>
        onWay.directory) (·.directory before)
    rcases new with vacant | directory
    · rw [vacant, ← before]
      exact .same
    · rw [directory]
      exact .made seen opens before directory

/-- The files once the making of scratch space has ended. -/
structure Prepares (x : Extractor) (draw : Draw) (fs : FileSystem) (p : Location)
    (ending : Ending Fault RunScratch) : Prop where
  tree : ending.files.IsTree
  leaves : x.EndsAt draw fs p (ending.files.get? p)
  releases : ∀ r, ending.result = .ok r → r.Reaches ending.files p → x.EndsAt draw fs p none

theorem Prepares.of_error {events : List Event} {fault : Fault}
    (seen : fs.absolute x.config.scratchDir = .ok base) (tree : fs.IsTree)
    (opens : fs.Adds [base] made ∨ x.Opens draw base fs made) :
    x.Prepares draw fs p ⟨made, events, .error fault⟩ :=
  ⟨opens.elim (·.tree tree) (·.tree tree), .of_opens seen opens, fun _ h _ => nomatch h⟩

section

variable {rooted opened : FileSystem} {result : Except IoFault Unit}
  (filled : base ≠ "") (based : fs.makeDirectories base = (made, .ok ()))

include based

theorem Opens.of_shared (shared : x.config.isolateRuns = false)
    (laidOut : made.makeDirectories (Layout.ofRoot base x.tool.name).binaryDir =
      (opened, result)) : x.Opens draw base fs opened := by
  have root : x.runRoot draw base = base := by simp [runRoot, shared]
  refine .shared shared ?_
  rw [runDir, root]
  exact ((FileSystem.adds_of_makeDirectories based).mono (by simp)).trans
    ((FileSystem.adds_of_makeDirectories laidOut).mono (by simp))

include filled

theorem Opens.of_own (isolated : x.config.isolateRuns = true)
    (owned : made.makeDirectory (RunScratch.ownRoot base draw) = .ok rooted)
    (laidOut : rooted.makeDirectories
      (Layout.ofRoot (RunScratch.ownRoot base draw) x.tool.name).binaryDir = (opened, result)) :
    x.Opens draw base fs opened := by
  have root : x.runRoot draw base = RunScratch.ownRoot base draw := if_pos isolated
  obtain ⟨place, found⟩ := FileSystem.find_of_makeDirectories filled based
  refine .own isolated (FileSystem.adds_of_makeDirectories based) found
    (RunScratch.rooted_eq found owned).2.1 ?_
  rw [runDir, root]
  exact ((FileSystem.adds_of_makeDirectory owned).mono (by simp)).trans
    ((FileSystem.adds_of_makeDirectories laidOut).mono (by simp))

omit filled

/-- Nothing lay in a root of the run's own, as it is new. -/
theorem Prepares.of_own {events : List Event} {cleanup : Bool}
    (seen : fs.absolute x.config.scratchDir = .ok base) (tree : fs.IsTree)
    (isolated : x.config.isolateRuns = true)
    (owned : made.makeDirectory (RunScratch.ownRoot base draw) = .ok rooted)
    (laidOut : rooted.makeDirectories
      (Layout.ofRoot (RunScratch.ownRoot base draw) x.tool.name).binaryDir = (opened, .ok ())) :
    x.Prepares draw fs p ⟨opened, events, .ok ⟨.ofRoot (RunScratch.ownRoot base draw) x.tool.name,
      some (RunScratch.ownRoot base draw), cleanup⟩⟩ := by
  have absolute := FileSystem.isAbsolute_of_absolute seen
  have filled := Path.ne_empty_of_isAbsolute absolute
  have opens := Opens.of_own filled based isolated owned laidOut
  refine ⟨opens.tree tree, .of_opens seen (Or.inr opens), fun r h reaches => ?_⟩
  obtain rfl := Except.ok.inj h
  rcases reaches with ⟨d, found, below⟩ | ⟨_, q, same, slot, inside⟩
  · exact .cleared seen opens (by rwa [runDir, runRoot, if_pos isolated]) below
  · obtain rfl := Option.some.inj same
    have basing := FileSystem.adds_of_makeDirectories based
    obtain ⟨place, found⟩ := FileSystem.find_of_makeDirectories filled based
    have kept := (FileSystem.adds_of_makeDirectory owned).kept.trans
      (FileSystem.adds_of_makeDirectories laidOut).kept
    obtain rfl : place ++ [RunScratch.rootName draw] = q := Except.ok.inj
      ((RunScratch.slot_ownRoot found owned absolute kept).symm.trans slot)
    have free := RunScratch.isFree_root (basing.tree tree) found owned
    rw [← basing.kept.vacant (free.get?_eq_none inside)]
    exact .same

/-- A space that runs share is cleared before its tool's directory is used. -/
theorem Prepares.of_shared {cleanup : Bool} (seen : fs.absolute x.config.scratchDir = .ok base)
    (tree : fs.IsTree) (shared : x.config.isolateRuns = false)
    (laidOut : made.makeDirectories (Layout.ofRoot base x.tool.name).binaryDir =
      (opened, .ok ())) :
    x.Prepares draw fs p ⟨((Layout.ofRoot base x.tool.name).clear opened).files,
      ((Layout.ofRoot base x.tool.name).clear opened).events,
      .ok ⟨.ofRoot base x.tool.name, none, cleanup⟩⟩ := by
  have absolute := FileSystem.isAbsolute_of_absolute seen
  have root : x.runRoot draw base = base := by simp [runRoot, shared]
  have opens : x.Opens draw base fs opened := .of_shared based shared laidOut
  obtain ⟨d, found⟩ := FileSystem.find_of_makeDirectories
    (Path.ne_empty_of_isAbsolute (Layout.isAbsolute_binaryDir x.tool.name absolute)) laidOut
  have clears := Layout.clears_clear found (opens.tree tree)
  have cleared (below : Location.Below d p) : x.EndsAt draw fs p none :=
    .cleared seen opens (by rwa [runDir, root]) below
  generalize Layout.clear _ _ = ended at clears ⊢
  refine ⟨clears.tree (opens.tree tree), ?_, fun r h reaches => ?_⟩
  · dsimp only
    rcases clears.get?_or p with same | ⟨gone, below⟩
    · rw [same]
      exact .of_opens seen (Or.inr opens)
    · rw [gone]
      exact cleared below
  · obtain rfl := Except.ok.inj h
    rcases reaches with ⟨q, there, below⟩ | ⟨_, _, none, _⟩
    · have before := FileSystem.find_of_kept clears.fewer (by rw [clears.current]) there
      exact cleared (FileSystem.find_unique before found ▸ below)
    · exact nomatch none

end

/-- Whichever way the making of scratch space ends, directories have been added first, and only then
has a shared one been cleared. -/
theorem prepares_scratch (draw : Draw) (tree : fs.IsTree) :
    x.Prepares draw fs p (x.scratch draw fs) := by
  cases seen : fs.absolute x.config.scratchDir with
  | error cause =>
    rw [scratch, RunScratch.create_of_no_current seen]
    exact ⟨tree, .same, fun _ h _ => nomatch h⟩
  | ok base =>
    have filled := Path.ne_empty_of_isAbsolute (FileSystem.isAbsolute_of_absolute seen)
    have ends := RunScratch.create_ends seen x.tool.name x.config.isolateRuns x.config.cleanup draw
    change RunScratch.CreateEnds fs base _ _ _ _ (x.scratch draw fs) at ends
    generalize isolated : x.config.isolateRuns = isolate at ends
    generalize x.scratch draw fs = ending at ends
    cases ends with
    | noBase failed =>
      exact .of_error seen tree (Or.inl (FileSystem.adds_of_makeDirectories failed))
    | noRoot based failed =>
      exact .of_error seen tree (Or.inl (FileSystem.adds_of_makeDirectories based))
    | noOwnLayout based owned failed =>
      exact .of_error seen tree (Or.inr (.of_own filled based isolated owned failed))
    | isolated based owned laidOut => exact .of_own based seen tree isolated owned laidOut
    | noSharedLayout based failed =>
      exact .of_error seen tree (Or.inr (.of_shared based isolated failed))
    | shared based laidOut => exact .of_shared based seen tree isolated laidOut

/-- The tool of a run leaves a location as it is, however it ends, and does not lead there what the
run removes; and so does its version's probe. -/
structure Spares (x : Extractor) (draw : Draw) (binary : String) (fs : FileSystem)
    (p : Location) : Prop where
  run : ∀ scratch, (x.scratch draw fs).result = .ok scratch →
    ChangesWithin (· ≠ p) (x.scratch draw fs).files
      (x.tool.run binary scratch.layout (x.scratch draw fs).files).files
  version : ∀ scratch, (x.scratch draw fs).result = .ok scratch →
    ChangesWithin (· ≠ p) (x.tool.run binary scratch.layout (x.scratch draw fs).files).files
      (x.tool.version (x.tool.run binary scratch.layout (x.scratch draw fs).files).files).files
  runLeads : ∀ scratch, (x.scratch draw fs).result = .ok scratch →
    scratch.Reaches (x.tool.run binary scratch.layout (x.scratch draw fs).files).files p →
      scratch.Reaches (x.scratch draw fs).files p
  versionLeads : ∀ scratch, (x.scratch draw fs).result = .ok scratch →
    scratch.Reaches
        (x.tool.version (x.tool.run binary scratch.layout (x.scratch draw fs).files).files).files
        p → scratch.Reaches (x.scratch draw fs).files p

/-- What a run finds at a location that its tool spares is changed by its scratch space alone. -/
theorem extract_endsAt (now : String) {binary : String} (header : Header) (tree : fs.IsTree)
    (spares : x.Spares draw binary fs p) :
    x.EndsAt draw fs p ((x.extract now draw binary header fs).files.get? p) := by
  rw [extract_eq]
  dsimp only
  cases known : header.isKnown with
  | false =>
    rw [stages_of_unknown x now draw binary header fs known]
    exact .same
  | true =>
    have prepares := x.prepares_scratch (p := p) draw tree
    rcases made : x.scratch draw fs with ⟨created, events, fault | scratch⟩
    · rw [made] at prepares
      rw [stages_of_refused x now draw binary fs known made]
      exact prepares.leaves
    · have running := spares.run scratch (by rw [made])
      have probing := spares.version scratch (by rw [made])
      have leads := work_files
        (P := fun files => scratch.Reaches files p → scratch.Reaches (x.scratch draw fs).files p)
        now header (spares.runLeads scratch (by rw [made]))
        (spares.versionLeads scratch (by rw [made]))
      rw [made] at prepares running probing leads
      have worked := work_changesWithin now header running probing
      rw [stages_of_created x now draw binary fs known made]
      dsimp only at worked leads ⊢
      rcases RunScratch.get?_release_or (worked.tree prepares.tree) p with same | ⟨gone, reaches⟩
      · rw [same, worked.outside p (fun other => other rfl)]
        exact prepares.leaves
      · rw [gone]
        exact prepares.releases scratch rfl (leads reaches)

/-! ## Tools whose name leads down -/

/-- What a run leaves where its tool does nothing: what was there; or a directory where nothing was,
on the way to its tool's directory; or nothing below that directory, if runs share it. -/
inductive LeavesAt (x : Extractor) (draw : Draw) (fs : FileSystem) (p : Location) :
    Option Entry → Prop
  | same : LeavesAt x draw fs p (fs.get? p)
  | made {base : String} {made : FileSystem} (seen : fs.absolute x.config.scratchDir = .ok base)
      (added : fs.Adds [x.runDir draw base] made) (vacant : fs.get? p = none)
      (onWay : made.OnWay (x.runDir draw base) p) : LeavesAt x draw fs p (some .directory)
  | cleared {base : String} {opened : FileSystem} {d : Location}
      (seen : fs.absolute x.config.scratchDir = .ok base)
      (shared : x.config.isolateRuns = false) (added : fs.Adds [x.sharedDir base] opened)
      (found : opened.find (x.sharedDir base) = .ok (d, .directory))
      (below : Location.Below d p) : LeavesAt x draw fs p none

theorem onWay_runRoot (onWay : fs.OnWay base p) : fs.OnWay (x.runRoot draw base) p := by
  unfold runRoot
  split
  · exact onWay.join (RunScratch.isName_rootName draw).relative
  · exact onWay

/-- All that a run makes is on the way to its tool's directory. -/
theorem adds_runDir (descends : Path.Descends x.tool.name)
    (opens : fs.Adds [base] made ∨ x.Opens draw base fs made) :
    fs.Adds [x.runDir draw base] made := by
  have further {paths : List String} {fs made : FileSystem} (added : fs.Adds paths made)
      (within : ∀ path ∈ paths,
        path = base ∨ path = x.runRoot draw base ∨ path = x.runDir draw base) :
      fs.Adds [x.runDir draw base] made := by
    refine added.of_onWay fun path member q onWay => ⟨_, List.mem_singleton_self _, ?_⟩
    rcases within path member with rfl | rfl | rfl
    · exact Layout.onWay_binaryDir descends (onWay_runRoot onWay)
    · exact Layout.onWay_binaryDir descends onWay
    · exact onWay
  rcases opens with added | ⟨_, added⟩ | ⟨_, first, _, _, added⟩
  · exact further added (by simp)
  · exact further added (by simp)
  · exact (further first (by simp)).trans (further added (by simp))

section

variable {based opened : FileSystem} {place d : Location} (tree : based.IsTree)
  (isolated : x.config.isolateRuns = true) (absolute : Path.isAbsolute base = true)
  (descends : Path.Descends x.tool.name) (found : based.find base = .ok (place, .directory))
  (vacant : based.get? (place ++ [RunScratch.rootName draw]) = none)
  (added : based.Adds [x.runRoot draw base, x.runDir draw base] opened)

include tree isolated absolute descends found vacant added

/-- In a root of its own a run finds its tool's directory below the root. -/
theorem Opens.isPrefix_of_find (there : opened.find (x.runDir draw base) = .ok (d, .directory)) :
    place ++ [RunScratch.rootName draw] <+: d := by
  have free : Site.IsFree ⟨based, tree, place⟩ (RunScratch.rootName draw) :=
    ⟨RunScratch.isRunName_rootName draw, vacant⟩
  have root : x.runRoot draw base = RunScratch.ownRoot base draw := if_pos isolated
  rw [runDir, root] at there
  exact Site.isPrefix_of_find (s := ⟨based, tree, place⟩) ⟨absolute, found⟩
    ((Site.isOpen_files free).of_adds added) free.isRunName
    (Layout.leads_binaryDir base free.isRunName.isName descends) there

/-- Once the scratch directory is there, all that is new lies in the root. -/
theorem Opens.isPrefix_of_added (absent : based.get? p = none)
    (directory : opened.get? p = some .directory) :
    place ++ [RunScratch.rootName draw] <+: p := by
  have free : Site.IsFree ⟨based, tree, place⟩ (RunScratch.rootName draw) :=
    ⟨RunScratch.isRunName_rootName draw, vacant⟩
  have isBase : Site.IsBase ⟨based, tree, place⟩ base := ⟨absolute, found⟩
  have isOpen := (Site.isOpen_files free).of_adds added
  have inside {path : String} {rest : List (List Char)}
      (leads : Path.Leads base (RunScratch.rootName draw) rest path) (onWay : opened.OnWay path p) :
      place ++ [RunScratch.rootName draw] <+: p :=
    ((Site.OnWay.inside_or isBase isOpen free.isRunName leads onWay).resolve_left
      (by simp [absent])).1
  have root : x.runRoot draw base = RunScratch.ownRoot base draw := if_pos isolated
  obtain ⟨path, member, onWay⟩ := added.exists_onWay absent directory
  rcases List.mem_cons.mp member with rfl | last
  · rw [root] at onWay
    exact inside (Path.leads_join base free.isRunName.isName) onWay
  · obtain rfl := List.mem_singleton.mp last
    rw [runDir, root] at onWay
    exact inside (Layout.leads_binaryDir base free.isRunName.isName descends) onWay

end

theorem EndsAt.leavesAt (tree : fs.IsTree) (descends : Path.Descends x.tool.name)
    {left : Option Entry} (h : x.EndsAt draw fs p left) : x.LeavesAt draw fs p left := by
  cases h with
  | same => exact .same
  | made seen opens vacant there =>
    have added := adds_runDir descends opens
    obtain ⟨_, member, onWay⟩ := added.exists_onWay vacant there
    exact .made seen added vacant (List.mem_singleton.mp member ▸ onWay)
  | @cleared base opened d seen opens found below =>
    have absolute := FileSystem.isAbsolute_of_absolute seen
    have added := adds_runDir descends (Or.inr opens)
    cases opens with
    | shared shared _ =>
      have dir : x.runDir draw base = x.sharedDir base := by
        simp [runDir, sharedDir, runRoot, shared]
      rw [dir] at added found
      exact .cleared seen shared added found below
    | own isolated first based vacant further =>
      -- The tool's directory lies in the run's own root, where nothing was.
      have under := Opens.isPrefix_of_find (first.tree tree) isolated absolute descends based vacant
        further found
      have free : Site.IsFree ⟨_, first.tree tree, _⟩ (RunScratch.rootName draw) :=
        ⟨RunScratch.isRunName_rootName draw, vacant⟩
      rw [← first.kept.vacant (free.get?_eq_none (under.trans below.1))]
      exact .same

theorem extract_leavesAt (now : String) {binary : String} (header : Header) (tree : fs.IsTree)
    (descends : Path.Descends x.tool.name) (spares : x.Spares draw binary fs p) :
    x.LeavesAt draw fs p ((x.extract now draw binary header fs).files.get? p) :=
  (extract_endsAt now header tree spares).leavesAt tree descends

end Extractor
end BasicBlocks
