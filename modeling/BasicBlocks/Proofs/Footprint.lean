import BasicBlocks.Proofs.Runs

/-!
# The footprint of a run

Whichever way a run ends, its scratch space is released. What is left is then what was there, with
the way to the scratch directory made; a run that shares its space also leaves the tool's directory,
empty. The tool is only asked to keep to its place.
-/

namespace BasicBlocks

open FileSystem (ChangesWithin IsTree Adds)

namespace RunScratch

/-- Where the tool may work: below the root if no other run shares it, and else below the directory
that is shared. -/
def Region (r : RunScratch) (fs : FileSystem) (p : Location) : Prop :=
  ∃ place, fs.find (r.ownedRoot.getD r.layout.binaryDir) = .ok (place, .directory) ∧
    Location.Below place p

theorem Region.below {r : RunScratch} {fs : FileSystem} {place p : Location} (h : r.Region fs p)
    (found : ∀ q, fs.find (r.ownedRoot.getD r.layout.binaryDir) = .ok (q, .directory) →
      q = place) : Location.Below place p := by
  obtain ⟨q, there, below⟩ := h
  exact found q there ▸ below

/-- What is cleaned up lies in the run's own root, where it has one: if the tool's directory is
found it is found there, and no link leads elsewhere in its place. -/
def StaysHome (r : RunScratch) (fs : FileSystem) : Prop :=
  r.cleanup = true → ∀ root place d, r.ownedRoot = some root →
    fs.find root = .ok (place, .directory) →
      fs.find r.layout.binaryDir = .ok (d, .directory) → place <+: d

theorem release_shared (l : Layout) (fs : FileSystem) :
    release ⟨l, none, true⟩ fs = ⟨(l.clear fs).files, (l.clear fs).events, .ok ()⟩ := by
  rcases cleared : l.clear fs with ⟨files, events, impossible | n⟩
  · exact impossible.elim
  · refine (Task.bind_of_ok cleared).trans ?_
    simp [pure]

theorem release_own {l : Layout} {root : String} {fs removed : FileSystem}
    (h : (l.clear fs).files.removeDirectory root = .ok removed) :
    release ⟨l, some root, true⟩ fs = ⟨removed, (l.clear fs).events, .ok ()⟩ := by
  rcases cleared : l.clear fs with ⟨files, events, impossible | n⟩
  · exact impossible.elim
  · rw [cleared] at h
    refine (Task.bind_of_ok cleared).trans ?_
    dsimp only
    rw [Task.bind_of_silent (Task.outcome_change_of_ok h)]
    simp [pure]

section

variable {made rooted opened worked : FileSystem} {base tool : String} {cleanup : Bool}
  {draw : Draw} {place d : Location}

section

variable (absolute : Path.isAbsolute base = true)

include absolute

/-- When a run's own root is removed, all is as it was before the root was made. -/
theorem get?_released_own (tree : made.IsTree) (found : made.find base = .ok (place, .directory))
    (owned : made.makeDirectory (ownRoot base draw) = .ok rooted) (workedTree : worked.IsTree)
    (outside : ∀ p, ¬ place ++ [rootName draw] <+: p → worked.get? p = made.get? p)
    (here : worked.get? (place ++ [rootName draw]) = some .directory)
    (home : StaysHome ⟨.ofRoot (ownRoot base draw) tool, some (ownRoot base draw), true⟩ worked) :
    let released :=
      (release ⟨.ofRoot (ownRoot base draw) tool, some (ownRoot base draw), true⟩ worked).files
    released.current = worked.current ∧ ∀ p, released.get? p = made.get? p := by
  have free := isFree_root tree found owned
  have keptIn : ∀ {fs : FileSystem}, (∀ p, ¬ place ++ [rootName draw] <+: p →
      fs.get? p = made.get? p) → made.KeptIn fs := fun same p entry there =>
    (same p (free.not_isPrefix there)).trans there
  have rootSlot : ∀ {fs : FileSystem}, made.KeptIn fs →
      fs.slot (ownRoot base draw) = .ok (place ++ [rootName draw]) := fun kept =>
    slot_ownRoot found owned absolute kept
  -- The clearing keeps to the root, and the root itself is left.
  have clears : ChangesWithin (Location.Below (place ++ [rootName draw])) worked
      ((Layout.ofRoot (ownRoot base draw) tool).clear worked).files := by
    by_cases reached : ∃ d, worked.find (Layout.ofRoot (ownRoot base draw) tool).binaryDir =
        .ok (d, .directory)
    · obtain ⟨d, there⟩ := reached
      have under := home rfl _ _ d rfl
        (FileSystem.find_of_slot (rootSlot (keptIn outside)) here) there
      refine (Layout.clears_clear there workedTree).mono fun p below =>
        ⟨under.trans below.1, ?_⟩
      rintro rfl
      exact below.2 (below.1.eq_of_length_le under.length_le).symm
    · rw [Layout.clear_of_not_found _ fun d there => reached ⟨d, there⟩]
      exact .refl _ _
  generalize cleared : ((Layout.ofRoot (ownRoot base draw) tool).clear worked).files = emptied
    at clears
  have outside' : ∀ p, ¬ place ++ [rootName draw] <+: p → emptied.get? p = made.get? p :=
    fun p above => (clears.outside p fun below => above below.1).trans (outside p above)
  have here' : emptied.get? (place ++ [rootName draw]) = some .directory :=
    (clears.outside _ fun below => below.2 rfl).trans here
  have filled := (FileSystem.find_eq_ok_iff.mp found).1.filled
  have removed : emptied.removeDirectory (ownRoot base draw) =
      .ok (emptied.prune (place ++ [rootName draw])) :=
    FileSystem.removeDirectory_eq_ok_iff.mpr ⟨_, .directory,
      FileSystem.entryAt_eq_ok_iff.mpr ⟨rootSlot (keptIn outside'), here', fun _ => rfl⟩,
      fun _ _ => nofun, rfl⟩
  rw [← cleared] at removed
  rw [release_own removed, cleared]
  refine ⟨clears.current, fun p => ?_⟩
  by_cases inside : place ++ [rootName draw] <+: p
  · rw [show made.get? p = none from free.get?_eq_none inside]
    refine FileSystem.get?_prune_of_isPrefix inside ?_
    rintro rfl
    simp at inside
  · exact (FileSystem.get?_prune_of_not_isPrefix inside).trans (outside' p inside)

/-- What a run with a root of its own leaves of the files. -/
theorem frame_own {fs : FileSystem} (isTree : fs.IsTree) (descends : Path.Descends tool)
    (based : fs.makeDirectories base = (made, .ok ()))
    (owned : made.makeDirectory (ownRoot base draw) = .ok rooted)
    (laidOut : rooted.makeDirectories (Layout.ofRoot (ownRoot base draw) tool).binaryDir =
      (opened, .ok ()))
    (changes : ChangesWithin
      (Region ⟨.ofRoot (ownRoot base draw) tool, some (ownRoot base draw), cleanup⟩ opened)
      opened worked)
    (home : StaysHome ⟨.ofRoot (ownRoot base draw) tool, some (ownRoot base draw), cleanup⟩
      worked) :
    let after := (release ⟨.ofRoot (ownRoot base draw) tool, some (ownRoot base draw), cleanup⟩
      worked).files
    after.current = fs.current ∧ fs.KeptIn after ∧
      (cleanup = true → Adds [base] fs after ∧
        ∃ place, after.find base = .ok (place, .directory)) := by
  have addsBase := FileSystem.adds_of_makeDirectories based
  have madeTree := addsBase.tree isTree
  obtain ⟨place, found⟩ :=
    FileSystem.find_of_makeDirectories (Path.ne_empty_of_isAbsolute absolute) based
  have free := isFree_root madeTree found owned
  have addsRoot := FileSystem.adds_of_makeDirectory owned
  have addsOpened := FileSystem.adds_of_makeDirectories laidOut
  have openedRoot := get?_opened_root found owned laidOut
  have rootFound := slot_ownRoot found owned absolute (addsRoot.kept.trans addsOpened.kept)
  have inside : ∀ p, Region ⟨.ofRoot (ownRoot base draw) tool, some (ownRoot base draw), cleanup⟩
      opened p → Location.Below (place ++ [rootName draw]) p := fun p region =>
    region.below fun q there =>
      FileSystem.find_unique there (FileSystem.find_of_slot rootFound openedRoot)
  have outside : ∀ p, ¬ place ++ [rootName draw] <+: p → worked.get? p = made.get? p :=
    fun p above => (changes.outside p fun region => above (inside p region).1).trans
      (get?_opened_outside madeTree found owned absolute descends laidOut above)
  have here : worked.get? (place ++ [rootName draw]) = some .directory :=
    (changes.outside _ fun region => (inside _ region).2 rfl).trans openedRoot
  have current : worked.current = made.current :=
    changes.current.trans (addsOpened.current.trans addsRoot.current)
  cases cleanup with
  | false =>
    refine ⟨current.trans addsBase.current, addsBase.kept.trans fun p entry there => ?_,
      fun h => nomatch h⟩
    exact (outside p (free.not_isPrefix there)).trans there
  | true =>
    obtain ⟨current', restored⟩ := get?_released_own absolute madeTree found owned
      (changes.tree (addsOpened.tree (addsRoot.tree madeTree))) outside here home
    have kept := fun p entry there => (restored p).trans (show made.get? p = some entry from there)
    have restoredAdds := addsBase.congr (current'.trans current) restored
    refine ⟨restoredAdds.current, restoredAdds.kept, fun _ => ⟨restoredAdds, place, ?_⟩⟩
    exact FileSystem.find_of_kept kept (by rw [current'.trans current]) found

end

/-- When space that is shared is released, the tool's directory is empty, and all else is as when
the directory was made. -/
theorem get?_released_shared {l : Layout} {created : FileSystem} (openedTree : opened.IsTree)
    (found : opened.find l.binaryDir = .ok (d, .directory))
    (cleared : (l.clear opened).files = created)
    (emptied : RemovalsSucceed (l.clear opened).events)
    (changes : ChangesWithin (Region ⟨l, none, true⟩ created) created worked)
    (succeed : RemovalsSucceed (release ⟨l, none, true⟩ worked).events) :
    let released := (release ⟨l, none, true⟩ worked).files
    released.current = opened.current ∧
      (∀ p, ¬ Location.Below d p → released.get? p = opened.get? p) ∧
        ∀ p, Location.Below d p → released.get? p = none := by
  have clears := Layout.clears_clear found openedTree
  have empty := fun p => Layout.emptied_of_clear (p := p) found openedTree emptied
  rw [cleared] at clears empty
  have before : ∀ q, created.find l.binaryDir = .ok (q, .directory) → q = d := fun q there =>
    FileSystem.find_unique (FileSystem.find_of_kept clears.fewer (by rw [clears.current]) there)
      found
  have inside : ∀ p, Region ⟨l, none, true⟩ created p → Location.Below d p :=
    fun p region => region.below before
  have workedTree : worked.IsTree := changes.tree (clears.tree openedTree)
  rw [release_shared] at succeed ⊢
  dsimp only
  by_cases reached : ∃ q, created.find l.binaryDir = .ok (q, .directory)
  · -- The way to the directory is as it was, so it is found again.
    obtain ⟨q, there⟩ := reached
    obtain rfl := before q there
    have kept : created.KeptIn worked := fun p entry held => by
      rw [changes.outside p fun region => ?_, held]
      exact nomatch (empty p (inside p region)).symm.trans held
    have again := FileSystem.find_of_kept kept (by rw [changes.current]) there
    have clears' := Layout.clears_clear again workedTree
    refine ⟨clears'.current.trans (changes.current.trans clears.current), fun p outside => ?_,
      fun p below => Layout.emptied_of_clear again workedTree succeed below⟩
    rw [clears'.outside p outside, changes.outside p fun region => outside (inside p region),
      clears.outside p outside]
  · -- The tool had no place to work at, so nothing is there that was not.
    have same : ∀ p, worked.get? p = created.get? p := fun p =>
      changes.outside p fun ⟨q, there, _⟩ => reached ⟨q, there⟩
    have kept : worked.KeptIn created := fun p entry held => (same p).symm.trans held
    have nowhere : ∀ q, worked.find l.binaryDir ≠ .ok (q, .directory) := fun q there =>
      reached ⟨q, FileSystem.find_of_kept kept (by rw [changes.current]) there⟩
    rw [Layout.clear_of_not_found l nowhere]
    exact ⟨changes.current.trans clears.current,
      fun p outside => (same p).trans (clears.outside p outside),
      fun p below => (same p).trans (empty p below)⟩

end

/-- What a run leaves of the files that shares its space with others: the way to the tool's
directory has been made, and elsewhere than below that directory nothing has changed. -/
theorem frame_shared {fs made opened worked : FileSystem} {base tool : String} {cleanup : Bool}
    (tree : fs.IsTree) (absolute : Path.isAbsolute base = true) (descends : Path.Descends tool)
    (based : fs.makeDirectories base = (made, .ok ()))
    (laidOut : made.makeDirectories (Layout.ofRoot base tool).binaryDir = (opened, .ok ()))
    (emptied : RemovalsSucceed ((Layout.ofRoot base tool).clear opened).events)
    (changes : ChangesWithin
      (Region ⟨.ofRoot base tool, none, cleanup⟩ ((Layout.ofRoot base tool).clear opened).files)
      ((Layout.ofRoot base tool).clear opened).files worked)
    (succeed : RemovalsSucceed (release ⟨.ofRoot base tool, none, cleanup⟩ worked).events) :
    let dir := (Layout.ofRoot base tool).binaryDir
    let after := (release ⟨.ofRoot base tool, none, cleanup⟩ worked).files
    Adds [dir] fs opened ∧ after.current = fs.current ∧
      ∃ d, opened.find dir = .ok (d, .directory) ∧
        (∀ p, ¬ Location.Below d p → after.get? p = opened.get? p) ∧
          (cleanup = true → ∀ p, Location.Below d p → after.get? p = none) := by
  have absolute' := Layout.isAbsolute_binaryDir tool absolute
  have filled := Path.ne_empty_of_isAbsolute absolute
  have addsOpened : Adds [(Layout.ofRoot base tool).binaryDir] fs opened := by
    refine ((FileSystem.adds_of_makeDirectories based).of_onWay ?_).trans
      (FileSystem.adds_of_makeDirectories laidOut)
    intro path member p onWay
    obtain rfl := List.mem_singleton.mp member
    exact ⟨_, List.mem_singleton_self _, Layout.onWay_binaryDir descends onWay⟩
  obtain ⟨d, found⟩ :=
    FileSystem.find_of_makeDirectories (Path.ne_empty_of_isAbsolute absolute') laidOut
  have openedTree := addsOpened.tree tree
  refine ⟨addsOpened, ?_⟩
  cases cleanup with
  | false =>
    have clears := Layout.clears_clear found openedTree
    have before : ∀ q, ((Layout.ofRoot base tool).clear opened).files.find
        (Layout.ofRoot base tool).binaryDir = .ok (q, .directory) → q = d := fun q there =>
      FileSystem.find_unique (FileSystem.find_of_kept clears.fewer (by rw [clears.current]) there)
        found
    exact ⟨changes.current.trans (clears.current.trans addsOpened.current), d, found,
      fun p outside => (changes.outside p fun region => outside (region.below before)).trans
        (clears.outside p outside), fun h => nomatch h⟩
  | true =>
    obtain ⟨current, outside, below⟩ :=
      get?_released_shared openedTree found rfl emptied changes succeed
    exact ⟨current.trans addsOpened.current, d, found, outside, fun _ => below⟩

end RunScratch

namespace Extractor

/-- The tool of a run keeps to the run's place, however it ends, and so does its version's probe. -/
structure StaysInside (x : Extractor) (binary : String) (scratch : RunScratch)
    (created : FileSystem) : Prop where
  run : ChangesWithin (scratch.Region created) created
    (x.tool.run binary scratch.layout created).files
  version : ChangesWithin (scratch.Region created)
    (x.tool.run binary scratch.layout created).files
    (x.tool.version (x.tool.run binary scratch.layout created).files).files

/-- Nor does it leave a link where the run looks for what it has to clean up. -/
structure LeavesHome (x : Extractor) (binary : String) (scratch : RunScratch)
    (created : FileSystem) : Prop where
  run : scratch.StaysHome (x.tool.run binary scratch.layout created).files
  version : scratch.StaysHome
    (x.tool.version (x.tool.run binary scratch.layout created).files).files

/-- The work of a run leaves the files as its tool does. -/
theorem work_files {x : Extractor} {binary : String} {layout : Layout} {created : FileSystem}
    {P : FileSystem → Prop} (now : String) (header : Header)
    (run : P (x.tool.run binary layout created).files)
    (version : P (x.tool.version (x.tool.run binary layout created).files).files) :
    P (x.work now binary header layout .init created).files := by
  have ends := x.work_ends now binary header layout created
  generalize x.work now binary header layout .init created = ending at ends ⊢
  cases ends with
  | done _ _ _ _ => exact version
  | _ => exact run

/-- The work of a run changes what its tool changes. -/
theorem work_changesWithin {x : Extractor} {binary : String} {layout : Layout}
    {created : FileSystem} {region : Location → Prop} (now : String) (header : Header)
    (run : ChangesWithin region created (x.tool.run binary layout created).files)
    (version : ChangesWithin region (x.tool.run binary layout created).files
      (x.tool.version (x.tool.run binary layout created).files).files) :
    ChangesWithin region created (x.work now binary header layout .init created).files :=
  work_files now header run (run.trans version)

/-- The tool's directory of a run that shares its space, in the scratch directory as it sees it. -/
def sharedDir (x : Extractor) (base : String) : String :=
  (Layout.ofRoot base x.tool.name).binaryDir

/-- What a run leaves of the files. A run with a root of its own keeps all there was, and where it
cleans up nothing is new but the way to the scratch directory. A run that shares its space makes the
way to the tool's directory and changes nothing else but what lies below; where it cleans up,
nothing is left there. -/
structure LeavesFrame (x : Extractor) (base : String) (fs after : FileSystem) : Prop where
  seen : fs.absolute x.config.scratchDir = .ok base
  current : after.current = fs.current
  own : x.config.isolateRuns = true → fs.KeptIn after ∧
    (x.config.cleanup = true → fs.Adds [base] after ∧
      ∃ place, after.find base = .ok (place, .directory))
  shared : x.config.isolateRuns = false → ∃ opened d, fs.Adds [x.sharedDir base] opened ∧
    opened.find (x.sharedDir base) = .ok (d, .directory) ∧
      (∀ p, ¬ Location.Below d p → after.get? p = opened.get? p) ∧
        (x.config.cleanup = true → ∀ p, Location.Below d p → after.get? p = none)

theorem extract_leaves_frame (x : Extractor) (now : String) (draw : Draw) (binary : String)
    (header : Header) (fs : FileSystem) (tree : fs.IsTree) (descends : Path.Descends x.tool.name)
    (stays : ∀ scratch, (x.scratch draw fs).result = .ok scratch →
      x.StaysInside binary scratch (x.scratch draw fs).files ∧
        x.LeavesHome binary scratch (x.scratch draw fs).files)
    (succeed : RemovalsSucceed (x.extract now draw binary header fs).events) :
    (header.isKnown = false → x.extract now draw binary header fs =
      ⟨fs, [.extractionStarted header.format header.kind, .formatSkipped x.tool.name,
        .extractionAborted ⟨.init, .unknownFormat x.tool.name⟩, .stageChanged .init .aborted],
        .error (.unknownFormat x.tool.name)⟩) ∧
    (header.isKnown = true → (∃ scratch, (x.scratch draw fs).result = .ok scratch) →
      ∃ base, x.LeavesFrame base fs (x.extract now draw binary header fs).files) := by
  constructor
  · intro unknown
    rw [extract_eq, stages_of_unknown x now draw binary header fs unknown]
    rfl
  · rintro known ⟨scratch, created⟩
    obtain ⟨base, seen⟩ := RunScratch.exists_base_of_create created
    have absolute := FileSystem.isAbsolute_of_absolute seen
    obtain ⟨stayed, atHome⟩ := stays scratch created
    have changes := work_changesWithin now header stayed.run stayed.version
    have home := work_files now header atHome.run atHome.version
    have ends := RunScratch.create_ends seen x.tool.name x.config.isolateRuns x.config.cleanup draw
    change RunScratch.CreateEnds fs base _ _ _ _ (x.scratch draw fs) at ends
    rcases made : x.scratch draw fs with ⟨files, events, result⟩
    rw [made] at created changes home ends
    obtain rfl : result = .ok scratch := created
    rw [extract_eq, stages_of_created x now draw binary fs known made] at succeed ⊢
    dsimp only at succeed changes home ⊢
    have creating : RemovalsSucceed events := fun e he => succeed e (by simp [he])
    have releasing : RemovalsSucceed
        (scratch.release (x.work now binary header scratch.layout .init files).files).events :=
      fun e he => succeed e (by simp [he])
    generalize isolated : x.config.isolateRuns = isolate at ends
    cases ends with
    | isolated based owned laidOut =>
      obtain ⟨current, kept, cleaned⟩ :=
        RunScratch.frame_own absolute tree descends based owned laidOut changes home
      exact ⟨base, seen, current, fun _ => ⟨kept, cleaned⟩,
        fun shared => nomatch isolated.symm.trans shared⟩
    | shared based laidOut =>
      obtain ⟨added, current, d, found, outside, below⟩ :=
        RunScratch.frame_shared tree absolute descends based laidOut creating changes releasing
      exact ⟨base, seen, current, fun own => (nomatch isolated.symm.trans own),
        fun _ => ⟨_, d, added, found, outside, below⟩⟩

/-- A tool that puts a link to a directory of someone else in the place of what is here, and
fails. -/
def linkingTool (holder : Location) (name : String) : Tool where
  name := "tool"
  displayName := "Tool"
  version := pure none
  run _ _ := fun fs =>
    ⟨(fs.prune (holder ++ [name])).put (holder ++ [name]) (.link "/precious"), [],
      .error (.toolFailed "tool" (some 1) "")⟩

def linkingExtractor (holder : Location) (name : String) : Extractor where
  tool := linkingTool holder name
  config := { Config.default "/tmp" with scratchDir := "/s", isolateRuns := true }

/-- A scratch directory beside a file of someone else. -/
def preciousFiles : FileSystem where
  current := []
  entries :=
    [(["s"], .directory), (["precious"], .directory),
      (["precious", "report"], .file [1] false)]

theorem isTree_preciousFiles : preciousFiles.IsTree :=
  FileSystem.isTree_of_entries (by decide)

def peHeader : Header := ⟨.pe, .executable, true, none, []⟩

theorem changesWithin_linked {fs : FileSystem} {layout : Layout} {holder : Location} {name : String}
    (there : fs.get? holder = some .directory) (isName : IsName name) :
    ChangesWithin (Location.Below holder) fs
      ((linkingTool holder name).run "/b" layout fs).files := by
  have pruned := FileSystem.clears_prune fs holder name
  refine pruned.toChangesWithin.trans (FileSystem.changesWithin_put ?_ isName ?_ _)
  · rwa [pruned.outside holder fun below => below.2 rfl]
  · exact FileSystem.get?_prune_of_isPrefix (List.prefix_refl _) (by simp)

/-- The scratch space of a run beside them. -/
def preciousScratch : RunScratch :=
  ⟨.ofRoot "/s/run-000000" "tool", some "/s/run-000000", true⟩

def scratchedFiles : FileSystem where
  current := []
  entries :=
    [(["s", "run-000000", "tool", "binary"], .directory), (["s", "run-000000", "tool"], .directory),
      (["s", "run-000000"], .directory)] ++ preciousFiles.entries

theorem scratch_linking (holder : Location) (name : String) :
    ((linkingExtractor holder name).scratch (.ofNat 0) preciousFiles).files = scratchedFiles ∧
      ((linkingExtractor holder name).scratch (.ofNat 0) preciousFiles).result =
        .ok preciousScratch := by
  have made : (RunScratch.create "/s" "tool" true true (.ofNat 0) preciousFiles).files =
        scratchedFiles ∧
      (RunScratch.create "/s" "tool" true true (.ofNat 0) preciousFiles).result =
        .ok preciousScratch := by decide +kernel
  exact made

theorem linking_staysInside {holder : Location} {name : String} (isName : IsName name)
    (under : ["s", "run-000000"] <+: holder)
    (there : scratchedFiles.get? holder = some .directory) :
    (linkingExtractor holder name).StaysInside "/b" preciousScratch scratchedFiles := by
  have found : scratchedFiles.find "/s/run-000000" = .ok (["s", "run-000000"], .directory) := by
    decide +kernel
  refine ⟨(changesWithin_linked there isName).mono fun p below => ⟨_, found, ?_⟩, .refl _ _⟩
  refine ⟨under.trans below.1, ?_⟩
  rintro rfl
  exact below.2 (below.1.eq_of_length_le under.length_le).symm

/-- A link that the tool leaves in its directory is removed, and nothing it leads to. -/
theorem failed_run_leaves_frame :
    let x := linkingExtractor ["s", "run-000000", "tool", "binary"] "away"
    let run := x.extract "now" (.ofNat 0) "/b" peHeader preciousFiles
    x.LeavesFrame "/s" preciousFiles run.files ∧
      run.files.get? ["precious", "report"] = some (.file [1] false) ∧
      run.files.get? ["s", "run-000000"] = none := by
  intro x run
  obtain ⟨files, made⟩ := scratch_linking ["s", "run-000000", "tool", "binary"] "away"
  have found : (x.tool.run "/b" preciousScratch.layout scratchedFiles).files.find
        "/s/run-000000/tool/binary" = .ok (["s", "run-000000", "tool", "binary"], .directory) ∧
      (x.tool.run "/b" preciousScratch.layout scratchedFiles).files.find
        "/s/run-000000" = .ok (["s", "run-000000"], .directory) := by decide +kernel
  have home : preciousScratch.StaysHome
      (x.tool.run "/b" preciousScratch.layout scratchedFiles).files := by
    rintro _ _ place d ⟨⟩ there there'
    obtain rfl := FileSystem.find_unique found.2 there
    obtain rfl := FileSystem.find_unique found.1 there'
    decide
  have ended : RemovalsSucceed run.events ∧
      run.files.get? ["precious", "report"] = some (.file [1] false) ∧
      run.files.get? ["s", "run-000000"] = none := by
    unfold RemovalsSucceed
    decide +kernel
  obtain ⟨_, framed⟩ := extract_leaves_frame x "now" (.ofNat 0) "/b" peHeader preciousFiles
    isTree_preciousFiles (show Path.Descends "tool" from ⟨by decide, by decide⟩)
    (fun scratch created => by
      obtain rfl := Except.ok.inj (made.symm.trans created)
      rw [files]
      exact ⟨linking_staysInside (by decide) (by decide) (by decide), home, home⟩) ended.1
  obtain ⟨base, frame⟩ := framed rfl ⟨preciousScratch, made⟩
  obtain rfl : base = "/s" := Except.ok.inj (frame.seen.symm.trans (by decide))
  exact ⟨frame, ended.2⟩

/-- Where the tool puts a link in the place of its own directory, the clean-up goes where it leads,
and removes what lies there. -/
theorem clean_up_follows_link :
    let x := linkingExtractor ["s", "run-000000", "tool"] "binary"
    let run := x.extract "now" (.ofNat 0) "/b" peHeader preciousFiles
    (∀ scratch, (x.scratch (.ofNat 0) preciousFiles).result = .ok scratch →
        x.StaysInside "/b" scratch (x.scratch (.ofNat 0) preciousFiles).files) ∧
      RemovalsSucceed run.events ∧ x.config.isolateRuns = true ∧ x.config.cleanup = true ∧
      preciousFiles.get? ["precious", "report"] = some (.file [1] false) ∧
      run.files.get? ["precious", "report"] = none ∧
      ¬ ∃ base, x.LeavesFrame base preciousFiles run.files := by
  intro x run
  obtain ⟨files, made⟩ := scratch_linking ["s", "run-000000", "tool"] "binary"
  have ended : RemovalsSucceed run.events ∧ run.files.get? ["precious", "report"] = none := by
    unfold RemovalsSucceed
    decide +kernel
  refine ⟨fun scratch created => ?_, ended.1, rfl, rfl, by decide, ended.2, ?_⟩
  · obtain rfl := Except.ok.inj (made.symm.trans created)
    rw [files]
    exact linking_staysInside (by decide) (by decide) (by decide)
  · rintro ⟨base, frame⟩
    exact nomatch ended.2.symm.trans ((frame.own rfl).1 _ (.file [1] false) (by decide))

end Extractor
end BasicBlocks
