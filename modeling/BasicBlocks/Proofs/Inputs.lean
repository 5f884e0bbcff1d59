import BasicBlocks.Proofs.Bystanders
import BasicBlocks.Proofs.WorkingDirectory

/-!
# Inputs from memory

Bytes that are to be disassembled are stored as one new file right in the directory for inputs,
whatever name they come with. A run on them gives what it gives on that file, and takes the file
away again.
-/

namespace BasicBlocks

open Utf8 (Bytes)
open FileSystem (IsTree Adds ChangesWithin)

/-! ## The last component of a path -/

namespace Path

variable {path : String} {piece : List Char}

/-- The piece is the last one of a path that says something. -/
def EndsIn (path : String) (piece : List Char) : Prop :=
  isVoid piece = false ∧
    ∃ front voids, pieces path = front ++ piece :: voids ∧ ∀ v ∈ voids, isVoid v = true

theorem endsIn_iff :
    EndsIn path piece ↔ ((pieces path).filter (!isVoid ·)).getLast? = some piece := by
  rw [List.getLast?_filter, List.find?_eq_some_iff_append, EndsIn]
  refine and_congr (by simp) ⟨?_, ?_⟩
  · rintro ⟨front, voids, whole, void⟩
    exact ⟨voids.reverse, front.reverse, by simp [whole], by simpa using void⟩
  · rintro ⟨voids, front, whole, void⟩
    refine ⟨front.reverse, voids.reverse, ?_, by simpa using void⟩
    rw [← List.reverse_reverse (pieces path), whole]
    simp

/-- What a path begins with is no name, and says nothing besides. -/
theorem front_says_nothing (path : String) :
    (front path).2.filter (!isVoid ·) = (pieces path).filter (!isVoid ·) ∧
      ∀ text, (front path).1 ≠ some (.name text) := by
  cases absolute : isAbsolute path with
  | true =>
    obtain ⟨body, whole, begins⟩ := exists_body absolute
    simp [whole, begins, isVoid]
  | false =>
    unfold front
    cases pieces path with
    | nil => simp
    | cons first rest =>
      by_cases dot : first = ['.']
      · simp [absolute, dot, isVoid]
      · simp [absolute, dot]

theorem fileName?_eq_some_iff {base : String} :
    fileName? path = some base ↔ EndsIn path base.toList ∧ base.toList ≠ ['.', '.'] := by
  obtain ⟨said, noName⟩ := front_says_nothing path
  have last : (components path).getLast? =
      (((pieces path).filter (!isVoid ·)).getLast?.map Component.ofPiece).or (front path).1 := by
    rw [← said, components, List.getLast?_append, List.getLast?_map]
    cases (front path).1 <;> rfl
  rw [endsIn_iff, fileName?, last]
  cases ((pieces path).filter (!isVoid ·)).getLast? with
  | none =>
    cases begins : (front path).1 with
    | none => simp
    | some first =>
      cases first with
      | name text => exact absurd begins (noName text)
      | _ => simp
  | some piece =>
    by_cases up : piece = ['.', '.']
    · simp +contextual [Component.ofPiece, up, eq_comm]
    · simp only [Option.map_some, Option.some_or, Component.ofPiece, if_neg up, Option.some.injEq]
      constructor
      · rintro rfl
        simpa using up
      · rintro ⟨rfl, _⟩
        exact String.ofList_toList

end Path

/-! ## Files in a directory -/

namespace FileSystem

variable {fs written : FileSystem} {path : String} {contents : Bytes}

theorem createFile_eq_ok_iff {created : FileSystem} :
    fs.createFile path contents = .ok created ↔ ∃ place, fs.slot path = .ok place ∧
      path.toList.getLast? ≠ some '/' ∧ fs.get? place = none ∧
        created = fs.put place (.file contents false) := by
  unfold createFile
  cases fs.slot path with
  | error cause => simp [bind, Except.bind]
  | ok place =>
    by_cases slashed : path.toList.getLast? = some '/'
    · simp [bind, Except.bind, slashed]
    · cases there : fs.get? place <;> simp [bind, Except.bind, slashed, there, eq_comm]

/-- A file that is made by a name in a directory is new there, and is found. -/
theorem found_of_createFile_join {dir name : String} (filled : dir ≠ "") (isName : IsName name)
    (h : fs.createFile (Path.join dir name) contents = .ok written) :
    ∃ place, fs.find dir = .ok (place, .directory) ∧ fs.get? (place ++ [name]) = none ∧
      written = fs.put (place ++ [name]) (.file contents false) ∧
      written.find (Path.join dir name) = .ok (place ++ [name], .file contents false) := by
  obtain ⟨_, slot, _, vacant, rfl⟩ := createFile_eq_ok_iff.mp h
  obtain ⟨usable, fits, place, found, rfl⟩ := (slot_join_iff isName filled).mp slot
  have there : (fs.put (place ++ [name]) (.file contents false)).get? (place ++ [name]) =
      some (.file contents false) := by
    rw [get?_put _ _ _ _ (by simp), if_pos rfl]
  refine ⟨place, found, vacant, rfl, ?_⟩
  have found' := find_of_kept (keptIn_put vacant (.file contents false)) rfl found
  exact (find_join_iff isName filled found' (by simp [NoLink, there])).mpr
    ⟨usable, fits, rfl, there⟩

end FileSystem

/-! ## Storing an input -/

namespace Input

/-- What the name of an input's file ends in: the last component of the name given for it, if that
is a name. -/
inductive IsBase (name : String) : String → Prop
  | named {base : String} (last : Path.EndsIn name base.toList)
      (notUp : base.toList ≠ ['.', '.']) : IsBase name base
  | other (none : ∀ piece, Path.EndsIn name piece → piece = ['.', '.']) : IsBase name "binary"

theorem isBase_baseName (name : String) : IsBase name (baseName name) := by
  unfold baseName
  cases last : Path.fileName? name with
  | some base =>
    obtain ⟨ends, notUp⟩ := Path.fileName?_eq_some_iff.mp last
    exact .named ends notUp
  | none =>
    refine .other fun piece ends => ?_
    by_contra notUp
    rw [← String.toList_ofList (l := piece)] at ends notUp
    exact nomatch last.symm.trans (Path.fileName?_eq_some_iff.mpr ⟨ends, notUp⟩)

theorem IsBase.noSlash {name base : String} (h : IsBase name base) : '/' ∉ base.toList := by
  cases h with
  | named last notUp =>
    obtain ⟨_, front, voids, whole, _⟩ := last
    have mem : base.toList ∈ Path.pieces name := by simp [whole]
    exact Path.not_mem_of_mem_pieces mem
  | other => decide

theorem isName_fileName {name base : String} (draw : Draw) (h : IsBase name base) :
    IsName (fileName draw base) := by
  have begins : (fileName draw base).toList =
      'i' :: 'n' :: 'p' :: 'u' :: 't' :: '-' :: (draw.text.toList ++ '-' :: base.toList) := by
    simp [fileName]
  refine ⟨?_, ?_, ?_⟩
  · simp [begins, Path.isVoid]
  · simp [begins]
  · simp [begins, draw.noSlash, h.noSlash]

/-- Bytes are stored in a directory, wherever its path leads: as a new file right in it, named by
what is drawn for it, six letters or digits, and by the end of the name that they come with. All
else that is new are directories on the way. -/
structure IsStored (fs : FileSystem) (directory : String) (draw : Draw) (name : String)
    (data : Bytes) (stored : FileSystem) (path : String) (holder : Location) (file : String) :
    Prop where
  tree : stored.IsTree
  current : stored.current = fs.current
  isName : IsName file
  named : ∃ base, file = "input-" ++ draw.text ++ "-" ++ base ∧ IsBase name base ∧
    draw.text.length = 6
  leads : stored.LeadsTo directory holder
  fresh : ∀ p, holder ++ [file] <+: p → fs.get? p = none
  joined : ∃ base, stored.absolute directory = .ok base ∧ path = Path.join base file
  found : stored.find path = .ok (holder ++ [file], .file data false)
  kept : fs.KeptIn stored
  added : ∀ p, fs.get? p = none → p ≠ holder ++ [file] →
    stored.get? p = none ∨ stored.OnWay directory p

/-- The directory is made first; then the file is made there, which was not there. -/
theorem exists_of_materialize
    (h : materialize directory draw name data fs = ⟨stored, events, .ok path⟩) :
    ∃ made base, fs.makeDirectories directory = (made, .ok ()) ∧
      made.absolute directory = .ok base ∧
      path = Path.join base (fileName draw (baseName name)) ∧
      made.createFile path data = .ok stored := by
  simp only [materialize, Task.mapFault, bind, Task.changePartly, Task.tell, Task.change,
    pure] at h
  rcases making : fs.makeDirectories directory with ⟨made, cause | _⟩
  · simp [making, Except.mapError] at h
  · simp only [making] at h
    cases seen : made.absolute directory with
    | error cause => simp [seen, Except.mapError] at h
    | ok base =>
      simp only [seen] at h
      cases wrote : made.createFile (Path.join base (fileName draw (baseName name))) data with
      | error cause => simp [wrote, Except.mapError] at h
      | ok written =>
        simp only [wrote, Except.mapError, Ending.mk.injEq, Except.ok.injEq] at h
        obtain ⟨rfl, _, rfl⟩ := h
        exact ⟨made, base, rfl, seen, rfl, wrote⟩

theorem materialize_eq_of_result
    (h : (materialize directory draw name data fs).result = .ok path) :
    materialize directory draw name data fs =
      ⟨(materialize directory draw name data fs).files,
        (materialize directory draw name data fs).events, .ok path⟩ := by
  rw [← h]

/-- Whatever name bytes come with, they are stored as a new file right in the directory. -/
theorem exists_isStored (tree : fs.IsTree)
    (h : materialize directory draw name data fs = ⟨stored, events, .ok path⟩) :
    ∃ holder file, IsStored fs directory draw name data stored path holder file := by
  obtain ⟨made, base, making, seen, rfl, created⟩ := exists_of_materialize h
  have isBase := isBase_baseName name
  have isName := isName_fileName draw isBase
  have adds := FileSystem.adds_of_makeDirectories making
  have madeTree := adds.tree tree
  obtain ⟨holder, found, vacant, rfl, foundFile⟩ := FileSystem.found_of_createFile_join
    (Path.ne_empty_of_isAbsolute (FileSystem.isAbsolute_of_absolute seen)) isName created
  have notDirectory : made.get? (holder ++ [fileName draw (baseName name)]) ≠ some .directory := by
    simp [vacant]
  have leads := (FileSystem.LeadsTo.of_find found).of_absolute madeTree seen
  have keeps := FileSystem.keptIn_put vacant (.file data false)
  have current : (made.put (holder ++ [fileName draw (baseName name)]) (.file data false)).current =
    made.current := rfl
  refine ⟨holder, fileName draw (baseName name), ?_⟩
  constructor
  case tree => exact madeTree.put leads.directory isName notDirectory _
  case current => exact adds.current
  case isName => exact isName
  case named => exact ⟨baseName name, rfl, isBase, draw.length_eq⟩
  case leads => exact leads.of_kept current keeps
  case fresh =>
    refine fun p inside => adds.kept.vacant ?_
    by_cases same : p = holder ++ [fileName draw (baseName name)]
    · rw [same, vacant]
    · exact madeTree.vacant_below notDirectory ⟨inside, same⟩
  case joined => exact ⟨base, FileSystem.absolute_of_kept current keeps seen, rfl⟩
  case found => exact foundFile
  case kept => exact adds.kept.trans keeps
  case added =>
    intro p there other
    rw [FileSystem.get?_put _ _ _ _ (by simp), if_neg other]
    refine (adds.added p there).imp_right fun ⟨_, member, onWay⟩ => ?_
    exact List.mem_singleton.mp member ▸ onWay.of_kept current keeps

/-- On a way that does not go up, what is new leads down to the file's directory: below it there is
nothing but what has been made, and no link. -/
theorem IsStored.isPrefix_of_onWay {holder p : Location} {file : String} (tree : fs.IsTree)
    (h : IsStored fs directory draw name data stored path holder file)
    (noUp : ['.', '.'] ∉ Path.pieces directory) (vacant : fs.get? p = none)
    (onWay : stored.OnWay directory p) : p <+: holder := by
  obtain ⟨_, front, ⟨more, whole⟩, walked⟩ := onWay
  have arrives := h.leads.walked
  rw [← whole] at arrives noUp
  obtain ⟨n, _, walks⟩ := FileSystem.walk_eq_ok_iff.mp arrives
  obtain ⟨m, k, mid, _, before, after⟩ := walks.exists_of_append
  obtain ⟨_, _, before'⟩ := FileSystem.walk_eq_ok_iff.mp walked
  obtain rfl : p = mid := before'.unique before
  have plain (q : Location) (inside : p <+: q) : stored.NoLink q := by
    have new : fs.get? q = none := by
      by_cases same : q = p
      · rw [same, vacant]
      · exact tree.vacant_below (by simp [vacant]) ⟨inside, same⟩
    by_cases file : q = holder ++ [file]
    · obtain ⟨_, _, there⟩ := FileSystem.find_eq_ok_iff.mp h.found
      simp [FileSystem.NoLink, file, there]
    · exact (h.added q new file).elim .of_vacant fun onWay => .of_directory onWay.directory
  have notUp : ['.', '.'] ∉ more := fun up => noUp (List.mem_append_right _ up)
  rw [(after.eq_along notUp plain).2]
  exact Location.isPrefix_along notUp p

/-! ## Releasing an input -/

theorem release_of_ok {removed : FileSystem} (h : fs.removeFile path = .ok removed) :
    release path fs = ⟨removed, [], .ok ()⟩ :=
  Task.bind_of_silent (Task.outcome_change_of_ok h)

theorem release_of_error {cause : IoFault} (h : fs.removeFile path = .error cause) :
    release path fs = ⟨fs, [.inputKept path cause], .ok ()⟩ :=
  Task.bind_of_silent (Task.outcome_change_of_error h)

/-- A release that is not reported as failed has removed what was there, and it touches nothing
else. -/
theorem get?_release (fs : FileSystem) (path : String) :
    (release path fs).files.current = fs.current ∧ (release path fs).files.KeptIn fs ∧
    ((∀ cause, Event.inputKept path cause ∉ (release path fs).events) →
      ∃ place, fs.slot path = .ok place ∧
        ∀ p, place <+: p → (release path fs).files.get? p = none) ∧
    ∀ p, (∀ place, fs.slot path = .ok place → ¬ place <+: p) →
      (release path fs).files.get? p = fs.get? p := by
  cases removed : fs.removeFile path with
  | error cause =>
    rw [release_of_error removed]
    exact ⟨rfl, .refl fs, fun silent => absurd List.mem_cons_self (silent cause), fun _ _ => rfl⟩
  | ok left =>
    rw [release_of_ok removed]
    obtain ⟨place, entry, found, noDirectory, rfl⟩ := FileSystem.removeFile_eq_ok_iff.mp removed
    obtain ⟨slot, there, _⟩ := FileSystem.entryAt_eq_ok_iff.mp found
    refine ⟨rfl, fun p entry => FileSystem.get?_prune_eq_some,
      fun _ => ⟨place, slot, fun p inside => FileSystem.get?_prune_of_isPrefix inside ?_⟩,
      fun p outside => FileSystem.get?_prune_of_not_isPrefix (outside place slot)⟩
    rintro rfl
    obtain rfl := List.prefix_nil.mp inside
    exact noDirectory (Option.some.inj (there.symm.trans (FileSystem.get?_root fs)))

/-- Nothing is left at the path. -/
theorem entryAt_release_ne_ok (fs : FileSystem) (path : String)
    (silent : ∀ cause, Event.inputKept path cause ∉ (release path fs).events)
    (found : Location × Entry) : (release path fs).files.entryAt path ≠ .ok found := by
  obtain ⟨current, fewer, removed, _⟩ := get?_release fs path
  obtain ⟨place, slot, gone⟩ := removed silent
  intro there
  obtain ⟨slot', there, _⟩ := FileSystem.entryAt_eq_ok_iff.mp there
  have same := (FileSystem.slot_of_kept fewer (by rw [current]) slot').symm.trans slot
  rw [Except.ok.inj same, gone place (List.prefix_refl place)] at there
  cases there

end Input

/-! ## Runs on bytes -/

namespace Extractor

variable {x : Extractor} {now name path file base : String} {inputDraw draw : Draw} {data : Bytes}
  {header : Header} {fs stored : FileSystem} {events : List Event} {p : Location}

/-- Where the inputs of a run are stored. -/
def inputsDir (x : Extractor) : String := Path.join x.config.scratchDir "inputs"

theorem extractBytes_of_stored (now : String) (draw : Draw) (header : Header)
    (h : Input.materialize x.inputsDir inputDraw name data fs = ⟨stored, events, .ok path⟩) :
    let ran := x.extract now draw path header stored
    let released := Input.release path ran.files
    x.extractBytes now inputDraw draw name data header fs =
      ⟨released.files, events ++ (ran.events ++ released.events), ran.result⟩ :=
  Task.bind_of_ok h

/-- The scratch space of a run has no part of the directory for inputs: its paths go straight down
from the scratch directory, to a root of the run's own or by another name than the inputs', and
along no links. -/
structure KeepsApart (x : Extractor) (fs : FileSystem) : Prop where
  isName : IsName x.tool.name
  noUp : ['.', '.'] ∉ Path.pieces x.config.scratchDir
  other : x.config.isolateRuns = false → x.tool.name ≠ "inputs"
  inputsPlain : ∀ place, fs.LeadsTo x.config.scratchDir place → fs.NoLink (place ++ ["inputs"])
  toolPlain : x.config.isolateRuns = false → ∀ place, fs.LeadsTo x.config.scratchDir place →
    fs.NoLink (place ++ [x.tool.name]) ∧ fs.NoLink (place ++ [x.tool.name, "binary"])

theorem rootName_ne_inputs (draw : Draw) : RunScratch.rootName draw ≠ "inputs" := by
  intro same
  have first := congrArg (·.toList.head?) same
  simp [RunScratch.rootName, RunScratch.runMark] at first

section

variable {stored made : FileSystem} {place : Location}
  (leads : stored.LeadsTo x.config.scratchDir place)
  (seen : stored.absolute x.config.scratchDir = .ok base)

include leads seen

theorem eq_of_leadsTo_base (madeTree : made.IsTree) (current : made.current = stored.current)
    (kept : stored.KeptIn made) (there : made.LeadsTo base p) : p = place :=
  (there.of_absolute madeTree (FileSystem.absolute_of_kept current kept seen)).unique
    (leads.of_kept current kept)

variable (tree : stored.IsTree)

include tree

/-- As the scratch directory is there, nothing is new on its way. -/
theorem not_onWay_base (madeTree : made.IsTree) (current : made.current = stored.current)
    (kept : stored.KeptIn made) (vacant : stored.get? p = none) : ¬ made.OnWay base p := by
  intro onWay
  have there : stored.get? p = some .directory := by
    rcases onWay.of_absolute madeTree (FileSystem.absolute_of_kept current kept seen) with
      onWay | ⟨relative, isPrefix⟩
    · obtain ⟨_, front, part, walked⟩ := onWay
      rw [current] at walked
      exact FileSystem.directory_of_walk_front kept leads.walked leads.directory part walked
    · rcases FileSystem.absolute_eq_ok_iff.mp seen with ⟨absolute, _⟩ | ⟨_, here, _⟩
      · exact absurd absolute (by simp [relative])
      · exact tree.directory_of_isPrefix (current ▸ isPrefix) here
  rw [vacant] at there
  cases there

/-- In a space that runs share, the tool's directory is straight down from the scratch directory. -/
theorem isPrefix_of_shared (apart : x.KeepsApart stored) (shared : x.config.isolateRuns = false)
    (added : stored.Adds [base, x.runDir draw base] made)
    (there : stored.get? p = none ∧ made.get? p = some .directory ∨
      made.LeadsTo (x.runDir draw base) p) : place ++ [x.tool.name] <+: p := by
  have madeTree := added.tree tree
  have dir : x.runDir draw base = Path.join (Path.join base x.tool.name) "binary" := by
    simp [runDir, runRoot, shared, Layout.ofRoot]
  have isBinary : IsName "binary" := by decide
  obtain ⟨plain, plainBelow⟩ := apart.toolPlain shared place leads
  have atTool {q : Location} (h : made.LeadsTo (Path.join base x.tool.name) q) :
      q = place ++ [x.tool.name] := by
    obtain ⟨q', h', next⟩ := h.of_join apart.isName
    obtain rfl := eq_of_leadsTo_base leads seen madeTree added.current added.kept h'
    exact next (added.noLink plain)
  have atDir {q : Location} (h : made.LeadsTo (x.runDir draw base) q) :
      q = place ++ [x.tool.name, "binary"] := by
    rw [dir] at h
    obtain ⟨q', h', next⟩ := h.of_join isBinary
    obtain rfl := atTool h'
    rw [List.append_assoc] at next
    exact next (added.noLink plainBelow)
  have below : place ++ [x.tool.name] <+: place ++ [x.tool.name, "binary"] := by simp
  rcases there with ⟨vacant, directory⟩ | there
  · obtain ⟨path, member, onWay⟩ := added.exists_onWay vacant directory
    have notBase := not_onWay_base leads seen tree madeTree added.current added.kept vacant
    rcases List.mem_cons.mp member with rfl | last
    · exact absurd onWay notBase
    · obtain rfl := List.mem_singleton.mp last
      rw [dir] at onWay
      rcases onWay.of_join isBinary with onWay | there
      · rcases onWay.of_join apart.isName with onWay | there
        · exact absurd onWay notBase
        · exact (atTool there).symm ▸ List.prefix_refl _
      · exact (atDir (dir ▸ there)).symm ▸ below
  · exact (atDir there).symm ▸ below

/-- What is new of a run's scratch space, and its tool's directory, is not by the inputs' name. -/
theorem KeepsApart.exists_isPrefix (apart : x.KeepsApart stored)
    (opens : x.Opens draw base stored made)
    (there : stored.get? p = none ∧ made.get? p = some .directory ∨
      made.find (x.runDir draw base) = .ok (p, .directory)) :
    ∃ first, first ≠ "inputs" ∧ place ++ [first] <+: p := by
  have absolute := FileSystem.isAbsolute_of_absolute seen
  have descends := apart.isName.descends
  cases opens with
  | shared shared added =>
    exact ⟨_, apart.other shared,
      isPrefix_of_shared leads seen tree apart shared added (there.imp_right .of_find)⟩
  | @own based _ own isolated first found vacant added =>
    have basedTree := first.tree tree
    obtain rfl : own = place := eq_of_leadsTo_base leads seen basedTree first.current
      first.kept (.of_find found)
    refine ⟨_, rootName_ne_inputs draw, ?_⟩
    rcases there with ⟨absent, directory⟩ | there
    · have unmade : based.get? p = none := by
        refine (first.added p absent).resolve_right fun ⟨path, member, onWay⟩ => ?_
        obtain rfl := List.mem_singleton.mp member
        exact not_onWay_base leads seen tree basedTree first.current first.kept absent onWay
      exact Opens.isPrefix_of_added basedTree isolated absolute descends found vacant added unmade
        directory
    · exact Opens.isPrefix_of_find basedTree isolated absolute descends found vacant added there

end

/-- Nothing of the inputs is changed by scratch space that keeps apart from them. -/
theorem EndsAt.eq_of_keepsApart {holder : Location} (tree : fs.IsTree)
    (isStored : Input.IsStored fs x.inputsDir inputDraw name data stored path holder file)
    (apart : x.KeepsApart stored) (below : Location.Below holder p)
    (outside : ¬ holder ++ [file] <+: p) {left : Option Entry} (h : x.EndsAt draw stored p left) :
    left = fs.get? p := by
  have isName : IsName "inputs" := by decide
  obtain ⟨place, leads, straight⟩ := isStored.leads.of_join isName
  have noUp : ['.', '.'] ∉ Path.pieces x.inputsDir := by
    rw [inputsDir, Path.pieces_join_eq isName.relative, List.mem_append, not_or]
    exact ⟨fun up => apart.noUp ((Path.unslashed_isPrefix _).subset up), by decide⟩
  have same : stored.get? p = fs.get? p := by
    cases there : fs.get? p with
    | some entry => exact isStored.kept p entry there
    | none =>
      have other : p ≠ holder ++ [file] := fun same => outside (same ▸ List.prefix_refl p)
      refine (isStored.added p there other).resolve_right fun onWay => below.2 ?_
      exact (isStored.isPrefix_of_onWay tree noUp there onWay).eq_of_length_le below.1.length_le
  obtain rfl := straight (apart.inputsPlain place leads)
  have clash {first : String} (different : first ≠ "inputs") (within : place ++ [first] <+: p) :
      False := by
    have both := List.prefix_of_prefix_length_le below.1 within (by simp)
    rw [List.prefix_append_right_inj] at both
    exact different (List.cons_prefix_cons.mp both).1.symm
  cases h with
  | same => exact same
  | @made base made seen opens vacant there =>
    exfalso
    rcases opens with added | opens
    · obtain ⟨_, member, onWay⟩ := added.exists_onWay vacant there
      obtain rfl := List.mem_singleton.mp member
      exact not_onWay_base leads seen isStored.tree (added.tree isStored.tree) added.current
        added.kept vacant onWay
    · obtain ⟨first, different, within⟩ :=
        apart.exists_isPrefix leads seen isStored.tree opens (Or.inl ⟨vacant, there⟩)
      exact clash different within
  | cleared seen opens found inside =>
    obtain ⟨first, different, within⟩ :=
      apart.exists_isPrefix leads seen isStored.tree opens (Or.inr found)
    exact (clash different (within.trans inside.1)).elim

/-- How a run on bytes ends that have been stored: as the run on their file, and with the file gone
unless it is reported that it could not be removed. Nothing else is done to the files. -/
structure RunsOnInput (x : Extractor) (now : String) (inputDraw draw : Draw) (name : String)
    (data : Bytes) (header : Header) (fs stored : FileSystem) (path : String) (holder : Location)
    (file : String) (ended : Ending Fault Model) : Prop where
  isStored : Input.IsStored fs x.inputsDir inputDraw name data stored path holder file
  result : ended.result = (x.extract now draw path header stored).result
  gone : (∀ cause, Event.inputKept path cause ∉ ended.events) →
    (∀ found, ended.files.entryAt path ≠ .ok found) ∧
      ∃ place, (x.extract now draw path header stored).files.slot path = .ok place ∧
        ∀ p, place <+: p → ended.files.get? p = none
  elsewhere : ∀ p,
    (∀ place, (x.extract now draw path header stored).files.slot path = .ok place →
      ¬ place <+: p) →
    ended.files.get? p = (x.extract now draw path header stored).files.get? p
  spared : ∀ p, Location.Below holder p → ¬ holder ++ [file] <+: p → x.Spares draw path stored p →
    (∀ place, (x.extract now draw path header stored).files.slot path = .ok place →
      ¬ place <+: p) →
    x.EndsAt draw stored p (ended.files.get? p) ∧
      (x.KeepsApart stored → ended.files.get? p = fs.get? p)

theorem extractBytes_runsOnInput (now : String) (draw : Draw) (header : Header)
    {holder : Location} (tree : fs.IsTree)
    (isStored : Input.IsStored fs x.inputsDir inputDraw name data stored path holder file)
    (h : Input.materialize x.inputsDir inputDraw name data fs = ⟨stored, events, .ok path⟩) :
    x.RunsOnInput now inputDraw draw name data header fs stored path holder file
      (x.extractBytes now inputDraw draw name data header fs) := by
  obtain ⟨_, _, gone, elsewhere⟩ :=
    Input.get?_release (x.extract now draw path header stored).files path
  rw [extractBytes_of_stored now draw header h]
  refine ⟨isStored, rfl, fun silent => ?_, elsewhere, fun p below outside spares apart => ?_⟩
  · have quiet : ∀ cause, Event.inputKept path cause ∉
        (Input.release path (x.extract now draw path header stored).files).events :=
      fun cause reported =>
        silent cause (List.mem_append_right _ (List.mem_append_right _ reported))
    exact ⟨Input.entryAt_release_ne_ok _ path quiet, gone quiet⟩
  · have ends := extract_endsAt now header isStored.tree spares
    dsimp only
    rw [elsewhere p apart]
    exact ⟨ends, fun keeps => ends.eq_of_keepsApart tree isStored keeps below outside⟩

/-- Whatever name bytes come with, they are stored as a new file right in the directory given for
them, and nothing else is made but directories on its way. A run on bytes gives what it gives on
that file, which is gone afterwards. -/
theorem inputs_are_stored_and_taken_away (x : Extractor) (now : String) (inputDraw draw : Draw)
    (name : String) (data : Bytes) (header : Header) {fs : FileSystem} (tree : fs.IsTree) :
    (∀ directory stored events path,
      Input.materialize directory inputDraw name data fs = ⟨stored, events, .ok path⟩ →
        ∃ holder file, Input.IsStored fs directory inputDraw name data stored path holder file) ∧
    ∀ stored events path,
      Input.materialize x.inputsDir inputDraw name data fs = ⟨stored, events, .ok path⟩ →
        ∃ holder file,
          x.RunsOnInput now inputDraw draw name data header fs stored path holder file
            (x.extractBytes now inputDraw draw name data header fs) := by
  refine ⟨fun directory stored events path => Input.exists_isStored tree,
    fun stored events path h => ?_⟩
  obtain ⟨holder, file, isStored⟩ := Input.exists_isStored tree h
  exact ⟨holder, file, extractBytes_runsOnInput now draw header tree isStored h⟩

/-- A tool that does nothing. -/
def idleTool (name : String) : Tool where
  name
  displayName := name
  version := pure none
  run _ _ := pure ⟨"", 0⟩

theorem idleTool_spares {tool path : String} {c : Config} {draw : Draw} (fs : FileSystem)
    (p : Location) : Spares ⟨idleTool tool, c⟩ draw path fs p :=
  ⟨fun _ _ => .refl _ _, fun _ _ => .refl _ _, fun _ _ => id, fun _ _ => id⟩

/-- An extractor with an idle tool, whose runs share a relative scratch directory. -/
def idleExtractor (tool : String) : Extractor where
  tool := idleTool tool
  config := { Config.default "/tmp" with scratchDir := "s", isolateRuns := false }

/-- A file among the inputs that is none of theirs, and a tool's directory that is a link to
them. -/
def keptFiles : FileSystem where
  current := ["w"]
  entries :=
    [(["w"], .directory), (["w", "s"], .directory), (["w", "s", "inputs"], .directory),
      (["w", "s", "inputs", "binary"], .directory),
      (["w", "s", "inputs", "binary", "keep"], .file [1] false),
      (["w", "s", "linked"], .link "inputs")]

def elfHeader : Header := ⟨.elf, .executable, true, none, []⟩

/-- Where the tool has a name of its own, what was among the inputs is still there. -/
theorem library_is_stored_and_taken_away :
    let x := idleExtractor "tool"
    let ended := x.extractBytes "now" (.ofNat 0) (.ofNat 1) "../lib.so/." [2] elfHeader keptFiles
    (∃ stored path holder file, x.KeepsApart stored ∧
      x.RunsOnInput "now" (.ofNat 0) (.ofNat 1) "../lib.so/." [2] elfHeader keptFiles stored path
        holder file ended) ∧
      ended.result.map (fun _ => ()) =
        .error (.missingFacts "/w/s/tool/binary/instruction.facts") ∧
      ended.files.get? ["w", "s", "inputs", "input-000000-lib.so"] = none ∧
      ended.files.get? ["w", "s", "inputs", "binary", "keep"] = some (.file [1] false) := by
  have tree : keptFiles.IsTree := FileSystem.isTree_of_entries (by decide)
  have result : (Input.materialize (idleExtractor "tool").inputsDir (.ofNat 0) "../lib.so/." [2]
      keptFiles).result = .ok "/w/s/inputs/input-000000-lib.so" := by decide +kernel
  obtain ⟨holder, file, runs⟩ := (inputs_are_stored_and_taken_away (idleExtractor "tool") "now"
    (.ofNat 0) (.ofNat 1) "../lib.so/." [2] elfHeader tree).2 _ _ _
      (Input.materialize_eq_of_result result)
  have apart : (idleExtractor "tool").KeepsApart (Input.materialize
      (idleExtractor "tool").inputsDir (.ofNat 0) "../lib.so/." [2] keptFiles).files := by
    have found : (Input.materialize (idleExtractor "tool").inputsDir (.ofNat 0) "../lib.so/." [2]
        keptFiles).files.find "s" = .ok (["w", "s"], .directory) := by decide +kernel
    have atPlace : ∀ place, FileSystem.LeadsTo _ "s" place → place = ["w", "s"] :=
      fun place leads => leads.unique (.of_find found)
    refine ⟨by decide, by decide, by decide, fun place leads => ?_, fun _ place leads => ?_⟩ <;>
      rw [atPlace place leads]
    · exact .of_directory (by decide +kernel)
    · exact ⟨.of_vacant (by decide +kernel), .of_vacant (by decide +kernel)⟩
  exact ⟨⟨_, _, holder, file, apart, runs⟩, by decide +kernel, by decide +kernel, by decide +kernel⟩

/-- Where the tool is named like the directory for inputs, or its directory is a link to them, its
scratch directory lies there, and is emptied. -/
theorem inputs_tool_empties_inputs :
    let keep : Location := ["w", "s", "inputs", "binary", "keep"]
    let emptied := fun tool =>
      (∃ stored events path, Input.materialize (idleExtractor tool).inputsDir (.ofNat 0) "a.out" [2]
          keptFiles = ⟨stored, events, .ok path⟩ ∧
        stored.LeadsTo (idleExtractor tool).inputsDir ["w", "s", "inputs"] ∧
        (idleExtractor tool).Spares (.ofNat 1) path stored keep) ∧
      ((idleExtractor tool).extractBytes "now" (.ofNat 0) (.ofNat 1) "a.out" [2] elfHeader
        keptFiles).files.get? keep = none
    Location.Below ["w", "s", "inputs"] keep ∧ keptFiles.get? keep = some (.file [1] false) ∧
      emptied "inputs" ∧ emptied "linked" := by
  intro keep emptied
  have stores (tool : String) : ∃ stored events path,
      Input.materialize (idleExtractor tool).inputsDir (.ofNat 0) "a.out" [2] keptFiles =
          ⟨stored, events, .ok path⟩ ∧
        stored.LeadsTo (idleExtractor tool).inputsDir ["w", "s", "inputs"] ∧
        (idleExtractor tool).Spares (.ofNat 1) path stored keep := by
    have dir : (idleExtractor tool).inputsDir = "s/inputs" := by
      change Path.join "s" "inputs" = "s/inputs"
      decide
    have result : (Input.materialize "s/inputs" (.ofNat 0) "a.out" [2] keptFiles).result =
        .ok "/w/s/inputs/input-000000-a.out" := by decide +kernel
    have leads : (Input.materialize "s/inputs" (.ofNat 0) "a.out" [2] keptFiles).files.find
        "s/inputs" = .ok (["w", "s", "inputs"], .directory) := by decide +kernel
    rw [dir]
    exact ⟨_, _, _, Input.materialize_eq_of_result result, .of_find leads, idleTool_spares _ _⟩
  exact ⟨by decide, by decide, ⟨stores "inputs", by decide +kernel⟩, stores "linked",
    by decide +kernel⟩

end Extractor

end BasicBlocks
