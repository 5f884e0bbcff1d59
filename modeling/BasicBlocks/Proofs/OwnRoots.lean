import BasicBlocks.Proofs.Processes
import BasicBlocks.Proofs.Sites

/-!
# Own roots

Runs that share a scratch directory have a root of their own each. A run sees its own root, and
what lies outside of all of them. Where two runs see the same, a path that leads down from the root
of the one names what the same descent from the root of the other names, and what is done there does
the same to both.
-/

namespace BasicBlocks

open FileSystem (ChangesWithin Adds NoLink)
open BasicBlocks.Path (Leads)

/-- Both end well, with values that belong together, or both fail, with faults that do. -/
inductive Agree {ε δ α β : Type} (R : α → β → Prop) (E : ε → δ → Prop) :
    Except ε α → Except δ β → Prop
  | ok {a : α} {b : β} (h : R a b) : Agree R E (.ok a) (.ok b)
  | error {e : ε} {e' : δ} (h : E e e') : Agree R E (.error e) (.error e')

namespace Site

variable (s : Site)

/-- Inside of a root that a run may make. -/
def InRoots (p : Location) : Prop := ∃ name, s.IsFree name ∧ s.root name <+: p

/-- All is as it was at first, but for what is inside of the roots, where no links are. -/
structure Holds (fs : FileSystem) : Prop where
  current : fs.current = s.files.current
  tree : fs.IsTree
  outside : ∀ p, ¬ s.InRoots p → fs.get? p = s.files.get? p
  plain : ∀ p, s.InRoots p → fs.NoLink p

/-- Only what is inside of the root has changed, and no link has been made there. -/
structure WorksIn (name : String) (fs made : FileSystem) : Prop
    extends ChangesWithin (s.root name <+: ·) fs made where
  plain : ∀ p, s.root name <+: p → fs.NoLink p → made.NoLink p

/-- What the run of a name sees of some files is what the run of another name sees of others. -/
structure Mirrors (name name' : String) (fs fs' : FileSystem) : Prop where
  left : s.Holds fs
  right : s.Holds fs'
  own : ∀ rel, fs.get? (s.root name ++ rel) = fs'.get? (s.root name' ++ rel)

variable {s} {fs fs' made : FileSystem} {base name name' path path' : String}
  {rest : List (List Char)} {p : Location}

/-- Roots of different names have nothing in common. -/
theorem eq_of_root_isPrefix (h : s.root name <+: p) (h' : s.root name' <+: p) : name = name' := by
  have same : s.root name = s.root name' :=
    (List.prefix_of_prefix_length_le h h' (by simp [root])).eq_of_length (by simp [root])
  simpa [root] using same

theorem not_inRoots {entry : Entry} (h : s.files.get? p = some entry) : ¬ s.InRoots p :=
  fun ⟨_, free, inside⟩ => free.not_isPrefix h inside

theorem holds_files (s : Site) : s.Holds s.files where
  current := rfl
  tree := s.tree
  outside _ _ := rfl
  plain _ := fun ⟨_, free, inside⟩ => .of_vacant (free.get?_eq_none inside)

theorem Holds.kept (h : s.Holds fs) : s.files.KeptIn fs := fun p _ found =>
  (h.outside p (not_inRoots found)).trans found

theorem Holds.isOpen (h : s.Holds fs) (free : s.IsFree name) : s.IsOpen name fs where
  kept := h.kept
  plain p inside := h.plain p ⟨name, free, inside⟩


theorem WorksIn.refl (name : String) (fs : FileSystem) : s.WorksIn name fs fs :=
  ⟨.refl _ fs, fun _ _ noLink => noLink⟩

/-- Some of what is inside of the root is gone. -/
theorem worksIn_of_fewer (tree : made.IsTree) (current : made.current = fs.current)
    (outside : ∀ p, ¬ s.root name <+: p → made.get? p = fs.get? p) (fewer : made.KeptIn fs) :
    s.WorksIn name fs made where
  current := current
  tree _ := tree
  outside := outside
  plain _ _ noLink target there := noLink target (fewer _ _ there)

/-- A change inside of a root changes nothing outside of all roots. -/
theorem Holds.of_worksIn (h : s.Holds fs) (free : s.IsFree name) (works : s.WorksIn name fs made) :
    s.Holds made where
  current := works.current.trans h.current
  tree := works.tree h.tree
  outside p out := by
    rw [works.outside p fun inside => out ⟨name, free, inside⟩, h.outside p out]
  plain p inRoots := by
    by_cases inside : s.root name <+: p
    · exact works.plain p inside (h.plain p inRoots)
    · rw [NoLink, works.outside p inside]
      exact h.plain p inRoots

theorem mirrors_files (free : s.IsFree name) (free' : s.IsFree name') :
    s.Mirrors name name' s.files s.files where
  left := s.holds_files
  right := s.holds_files
  own rel := by
    rw [free.get?_eq_none (List.prefix_append _ rel), free'.get?_eq_none (List.prefix_append _ rel)]

/-- What another run does to its own root is not seen. -/
theorem Mirrors.of_worksIn (h : s.Mirrors name name' fs fs') {other : String}
    (free : s.IsFree other) (different : other ≠ name) (works : s.WorksIn other fs made) :
    s.Mirrors name name' made fs' where
  left := h.left.of_worksIn free works
  right := h.right
  own rel := by
    rw [works.outside, h.own]
    exact fun inside => different (eq_of_root_isPrefix inside (List.prefix_append _ rel))

theorem Mirrors.put (h : s.Mirrors name name' fs fs') {rel : Location} {entry : Entry}
    (left : s.Holds (fs.put (s.root name ++ rel) entry))
    (right : s.Holds (fs'.put (s.root name' ++ rel) entry)) :
    s.Mirrors name name' (fs.put (s.root name ++ rel) entry)
      (fs'.put (s.root name' ++ rel) entry) where
  left := left
  right := right
  own other := by
    rw [FileSystem.get?_put _ _ _ _ (root_ne_nil name rel),
      FileSystem.get?_put _ _ _ _ (root_ne_nil name' rel), h.own other]
    simp only [List.append_cancel_left_eq]

theorem Mirrors.prune (h : s.Mirrors name name' fs fs') {rel : Location}
    (left : s.Holds (fs.prune (s.root name ++ rel)))
    (right : s.Holds (fs'.prune (s.root name' ++ rel))) :
    s.Mirrors name name' (fs.prune (s.root name ++ rel)) (fs'.prune (s.root name' ++ rel)) where
  left := left
  right := right
  own other := by
    rw [FileSystem.get?_prune _ _ _ (root_ne_nil name other),
      FileSystem.get?_prune _ _ _ (root_ne_nil name' other), h.own other]
    have same : (s.root name ++ rel).isPrefixOf (s.root name ++ other) =
        (s.root name' ++ rel).isPrefixOf (s.root name' ++ other) := by
      rw [Bool.eq_iff_iff, List.isPrefixOf_iff_prefix, List.isPrefixOf_iff_prefix,
        List.prefix_append_right_inj, List.prefix_append_right_inj]
    rw [same]

/-! ## What is changed below a root -/

section

variable (isBase : s.IsBase base) (h : s.Holds fs) (free : s.IsFree name)
  (leads : Leads base name rest path)

include isBase h

/-- The place is a directory already. -/
theorem makeDirectories_base : fs.makeDirectories base = (fs, .ok ()) :=
  FileSystem.makeDirectories_of_find (find_base isBase h.kept)

include free

theorem worksIn_of_adds (leads : Leads base name rest path) (added : Adds [path] fs made) :
    s.WorksIn name fs made where
  toChangesWithin := (changesWithin_of_adds isBase (h.isOpen free) free.isRunName leads added).mono
    fun _ inside => inside.1
  plain p inside _ := ((h.isOpen free).of_adds added).plain p inside

theorem worksIn_clear {l : Layout} (leads : Leads base name rest l.binaryDir) :
    s.WorksIn name fs (l.clear fs).files := by
  by_cases reached : ∃ d, fs.find l.binaryDir = .ok (d, .directory)
  · obtain ⟨d, found⟩ := reached
    have under := isPrefix_of_find isBase (h.isOpen free) free.isRunName leads found
    have clears := Layout.clears_clear found h.tree
    exact worksIn_of_fewer (clears.tree h.tree) clears.current
      (fun p out => clears.outside p fun below => out (under.trans below.1)) clears.fewer
  · rw [Layout.clear_of_not_found l fun d found => reached ⟨d, found⟩]
    exact .refl name fs

include leads

theorem worksIn_makeDirectory (done : fs.makeDirectory path = .ok made) : s.WorksIn name fs made :=
  worksIn_of_adds isBase h free leads (FileSystem.adds_of_makeDirectory done)

theorem worksIn_makeDirectories : s.WorksIn name fs (fs.makeDirectories path).1 :=
  worksIn_of_adds isBase h free leads (FileSystem.adds_of_makeDirectories rfl)

theorem worksIn_removeDirectory (removed : fs.removeDirectory path = .ok made) :
    s.WorksIn name fs made := by
  obtain ⟨place, _, there, _, rfl⟩ := FileSystem.removeDirectory_eq_ok_iff.mp removed
  obtain ⟨slot, _, _⟩ := FileSystem.entryAt_eq_ok_iff.mp there
  have under := isPrefix_of_slot isBase (h.isOpen free) free.isRunName leads slot
  exact worksIn_of_fewer (h.tree.prune place) rfl
    (fun p out => FileSystem.get?_prune_of_not_isPrefix fun inside => out (under.trans inside))
    fun p entry => FileSystem.get?_prune_eq_some

theorem worksIn_write {contents : Utf8.Bytes} (written : fs.write path contents = .ok made) :
    s.WorksIn name fs made := by
  obtain ⟨place, executable, _, walked, _, _, rfl⟩ := FileSystem.exists_of_write written
  rw [Path.origin_of_isAbsolute (leads.isAbsolute isBase.absolute),
    leads.namingPieces_eq free.isRunName.filled] at walked
  have under := isPrefix_of_walk isBase (h.isOpen free) free.isRunName leads.namesNoUp walked
  have notRoot : place ≠ [] := by
    rintro rfl
    simp [root] at under
  have get := fun p => FileSystem.get?_put fs place p (.file contents executable) notRoot
  refine ⟨⟨rfl, fun tree => tree.of_write written, fun p out => ?_⟩, fun p _ noLink => ?_⟩
  · rw [get, if_neg]
    rintro rfl
    exact out under
  · rw [NoLink, get]
    split
    · simp
    · exact noLink

end

/-! ## Where there is a root -/

theorem start_ne_notFound (filled : path ≠ "") : fs.start path ≠ .error .notFound := by
  have some : path.isEmpty = false := by simpa using filled
  unfold FileSystem.start
  rw [some, if_neg Bool.false_ne_true]
  split
  next => simp
  next => split <;> simp

/-- A root does not lack a directory to be in. -/
theorem makeDirectory_root_ne_notFound (isBase : s.IsBase base) (h : s.Holds fs)
    (drawn : IsRunName name) (leads : Leads base name [] path) :
    fs.makeDirectory path ≠ .error .notFound := by
  have absolute := leads.isAbsolute isBase.absolute
  have begins : fs.start path ≠ .error .notFound :=
    start_ne_notFound (Path.ne_empty_of_isAbsolute absolute)
  unfold FileSystem.makeDirectory
  rw [FileSystem.slot_of_concat (leads.namingPieces_eq drawn.filled)]
  cases started : fs.start path with
  | error cause =>
    rw [started] at begins
    exact fun same => begins (congrArg Except.error (Except.error.inj same))
  | ok here =>
    obtain ⟨_, rfl⟩ := FileSystem.start_eq_ok_iff.mp started
    have stepped : fs.walkStep s.place name.toList = .ok (s.root name) :=
      FileSystem.walkStep_eq_ok_iff.mpr
        ⟨get?_place isBase h.kept, drawn.fits, step_root drawn⟩
    dsimp only [bind, Except.bind]
    rw [Path.origin_of_isAbsolute absolute, walk_stem isBase h.kept]
    dsimp only
    rw [stepped]
    dsimp only
    split
    next => exact fun same => nomatch Except.error.inj same
    next => exact fun same => nomatch same

/-! ## The same descent from two roots -/

section

variable (h : s.Mirrors name name' fs fs')

include h

theorem Mirrors.step_own {piece : List Char} (notUp : piece ≠ ['.', '.']) (rel : Location) :
    ∃ r : Except IoFault Location,
      fs.walkStep (s.root name ++ rel) piece = r.map (s.root name ++ ·) ∧
        fs'.walkStep (s.root name' ++ rel) piece = r.map (s.root name' ++ ·) := by
  unfold FileSystem.walkStep
  rw [h.own rel, if_neg notUp, if_neg notUp]
  rcases fs'.get? (s.root name' ++ rel) with _ | _ | _ | _
  · exact ⟨.error .notFound, rfl, rfl⟩
  · dsimp only
    split
    next => exact ⟨.ok rel, rfl, rfl⟩
    next =>
      split
      next => exact ⟨.error .nameTooLong, rfl, rfl⟩
      next =>
        rw [List.append_assoc, List.append_assoc]
        exact ⟨.ok (rel ++ [String.ofList piece]), rfl, rfl⟩
  · exact ⟨.error .notADirectory, rfl, rfl⟩
  · exact ⟨.error .notADirectory, rfl, rfl⟩

variable (free : s.IsFree name) (free' : s.IsFree name')

include free free'

/-- Two descents by the same pieces meet the same, and arrive at the same or nowhere. -/
theorem Mirrors.walk_own (noUp : ['.', '.'] ∉ rest) (rel : Location) :
    ∃ r : Except IoFault Location,
      fs.walkWithin 0 (s.root name ++ rel) rest = r.map (s.root name ++ ·) ∧
        fs'.walkWithin 0 (s.root name' ++ rel) rest = r.map (s.root name' ++ ·) := by
  induction rest generalizing rel with
  | nil => exact ⟨.ok rel, FileSystem.walkWithin_nil _ _, FileSystem.walkWithin_nil _ _⟩
  | cons piece rest ih =>
    have notUp : piece ≠ ['.', '.'] := fun up => noUp (up ▸ List.mem_cons_self)
    obtain ⟨r, stepped, stepped'⟩ := h.step_own notUp rel
    cases r with
    | error cause =>
      exact ⟨.error cause, FileSystem.walkWithin_cons_of_error stepped,
        FileSystem.walkWithin_cons_of_error stepped'⟩
    | ok next =>
      have noLink := h.left.plain _ ⟨name, free, List.prefix_append (s.root name) next⟩
      have noLink' := h.right.plain _ ⟨name', free', List.prefix_append (s.root name') next⟩
      rw [FileSystem.walkWithin_cons_of_noLink stepped noLink,
        FileSystem.walkWithin_cons_of_noLink stepped' noLink']
      exact ih (fun up => noUp (List.mem_cons_of_mem piece up)) next

end

section

variable (isBase : s.IsBase base) (h : s.Mirrors name name' fs fs') (free : s.IsFree name)
  (free' : s.IsFree name') (leads : Leads base name rest path)
  (leads' : Leads base name' rest path')

include isBase h free free' leads leads'

omit h in
theorem start_eq : fs.start path = fs'.start path' := by
  have absolute := leads.isAbsolute isBase.absolute
  have absolute' := leads'.isAbsolute isBase.absolute
  have nul : path.toList.contains '\x00' = path'.toList.contains '\x00' := by
    rw [Bool.eq_iff_iff, List.contains_iff_mem, List.contains_iff_mem]
    exact leads.nul_mem_iff leads' free.isRunName free'.isRunName
  have filled : path.isEmpty = false := by simpa using Path.ne_empty_of_isAbsolute absolute
  have filled' : path'.isEmpty = false := by simpa using Path.ne_empty_of_isAbsolute absolute'
  rw [FileSystem.start, FileSystem.start, nul, filled, filled',
    Path.origin_of_isAbsolute absolute, Path.origin_of_isAbsolute absolute',
    leads.utf8ByteSize_eq leads' free.isRunName free'.isRunName]

theorem exists_walk {pieces : List (List Char)} (noUp : ['.', '.'] ∉ pieces) :
    ∃ r : Except IoFault Location,
      (fs.start path >>= fun here => fs.walk here (Path.stem base ++ name.toList :: pieces)) =
          r.map (s.root name ++ ·) ∧
        (fs'.start path' >>= fun here => fs'.walk here (Path.stem base ++ name'.toList :: pieces)) =
          r.map (s.root name' ++ ·) := by
  have same : fs.start path = fs'.start path' := start_eq isBase free free' leads leads'
  rw [← same]
  cases started : fs.start path with
  | error cause => exact ⟨.error cause, rfl, rfl⟩
  | ok here =>
    obtain ⟨_, rfl⟩ := FileSystem.start_eq_ok_iff.mp started
    rw [Path.origin_of_isAbsolute (leads.isAbsolute isBase.absolute)]
    have arrived := h.walk_own free free' noUp []
    rw [List.append_nil, List.append_nil,
      ← walk_leads isBase (h.left.isOpen free) free.isRunName noUp,
      ← walk_leads isBase (h.right.isOpen free') free'.isRunName noUp] at arrived
    exact arrived

theorem exists_find : ∃ r : Except IoFault (Location × Entry),
    fs.find path = r.map (fun e => (s.root name ++ e.1, e.2)) ∧
      fs'.find path' = r.map (fun e => (s.root name' ++ e.1, e.2)) := by
  obtain ⟨r, located, located'⟩ := exists_walk isBase h free free' leads leads' leads.noUp
  rw [← leads.pieces] at located
  rw [← leads'.pieces] at located'
  unfold FileSystem.find FileSystem.locate
  rw [located, located']
  cases r with
  | error cause => exact ⟨.error cause, rfl, rfl⟩
  | ok rel =>
    dsimp only [Except.map, bind, Except.bind]
    rw [h.own rel]
    cases fs'.get? (s.root name' ++ rel) with
    | none => exact ⟨.error .notFound, rfl, rfl⟩
    | some entry => exact ⟨.ok (rel, entry), rfl, rfl⟩

theorem exists_slot : ∃ r : Except IoFault Location,
    fs.slot path = r.map (s.root name ++ ·) ∧ fs'.slot path' = r.map (s.root name' ++ ·) := by
  have names := leads.namingPieces_eq free.isRunName.filled
  have names' := leads'.namingPieces_eq free'.isRunName.filled
  have noUp := leads.namesNoUp
  generalize (rest.reverse.dropWhile (· = [])).reverse = kept at names names' noUp
  rcases List.eq_nil_or_concat' kept with rfl | ⟨front, piece, rfl⟩
  · have same : fs.start path = fs'.start path' := start_eq isBase free free' leads leads'
    rw [FileSystem.slot_of_concat names, FileSystem.slot_of_concat names', ← same]
    cases started : fs.start path with
    | error cause => exact ⟨.error cause, rfl, rfl⟩
    | ok here =>
      obtain ⟨_, rfl⟩ := FileSystem.start_eq_ok_iff.mp started
      have stepped : ∀ {fs : FileSystem} {name : String}, s.Holds fs → s.IsFree name →
          fs.walkStep s.place name.toList = .ok (s.root name) := fun holds free =>
        FileSystem.walkStep_eq_ok_iff.mpr
          ⟨get?_place isBase holds.kept, free.isRunName.fits, step_root free.isRunName⟩
      refine ⟨.ok [], ?_, ?_⟩ <;> dsimp only [bind, Except.bind] <;>
        rw [Path.origin_of_isAbsolute (leads.isAbsolute isBase.absolute)]
      · rw [walk_stem isBase h.left.kept]
        simp [stepped h.left free, Except.map]
      · rw [walk_stem isBase h.right.kept]
        simp [stepped h.right free', Except.map]
  · rw [← List.cons_append, ← List.append_assoc] at names names'
    obtain ⟨r, walked, walked'⟩ := exists_walk isBase h free free' leads leads'
      (fun up => noUp (List.mem_append_left _ up) : ['.', '.'] ∉ front)
    rw [FileSystem.slot_of_concat names, FileSystem.slot_of_concat names', ← bind_assoc,
      ← bind_assoc, walked, walked']
    cases r with
    | error cause => exact ⟨.error cause, rfl, rfl⟩
    | ok rel => exact h.step_own (fun up => noUp (by simp [up])) rel

theorem exists_entryAt : ∃ r : Except IoFault (Location × Entry),
    fs.entryAt path = r.map (fun e => (s.root name ++ e.1, e.2)) ∧
      fs'.entryAt path' = r.map (fun e => (s.root name' ++ e.1, e.2)) := by
  obtain ⟨r, slot, slot'⟩ := exists_slot isBase h free free' leads leads'
  have last := leads.getLast?_eq_slash_iff leads' free.isRunName free'.isRunName
  unfold FileSystem.entryAt
  rw [slot, slot']
  cases r with
  | error cause => exact ⟨.error cause, rfl, rfl⟩
  | ok rel =>
    dsimp only [Except.map, bind, Except.bind]
    rw [h.own rel]
    have settled (entry : Entry) : ∃ r : Except IoFault (Location × Entry),
        (if path.toList.getLast? = some '/' then .error .notADirectory
          else .ok (s.root name ++ rel, entry)) = r.map (fun e => (s.root name ++ e.1, e.2)) ∧
        (if path'.toList.getLast? = some '/' then .error .notADirectory
          else .ok (s.root name' ++ rel, entry)) = r.map (fun e => (s.root name' ++ e.1, e.2)) := by
      by_cases slash : path.toList.getLast? = some '/'
      · rw [if_pos slash, if_pos (last.mp slash)]
        exact ⟨.error .notADirectory, rfl, rfl⟩
      · rw [if_neg slash, if_neg (mt last.mpr slash)]
        exact ⟨.ok (rel, entry), rfl, rfl⟩
    rcases fs'.get? (s.root name' ++ rel) with _ | _ | _ | _
    · exact ⟨.error .notFound, rfl, rfl⟩
    · exact ⟨.ok (rel, .directory), rfl, rfl⟩
    · exact settled _
    · exact settled _

theorem read_eq : fs.read path = fs'.read path' := by
  obtain ⟨r, found, found'⟩ := exists_find isBase h free free' leads leads'
  rw [FileSystem.read, FileSystem.read, found, found']
  rcases r with cause | ⟨rel, _ | ⟨bytes, executable⟩ | target⟩ <;> rfl

theorem isDirectory_eq : fs.isDirectory path = fs'.isDirectory path' := by
  obtain ⟨r, found, found'⟩ := exists_find isBase h free free' leads leads'
  rw [FileSystem.isDirectory, FileSystem.isDirectory, found, found']
  rcases r with cause | ⟨rel, _ | ⟨bytes, executable⟩ | target⟩ <;> rfl

theorem agree_makeDirectory :
    Agree (s.Mirrors name name') Eq (fs.makeDirectory path) (fs'.makeDirectory path') := by
  obtain ⟨r, slot, slot'⟩ := exists_slot isBase h free free' leads leads'
  have left : ∀ made, fs.makeDirectory path = .ok made → s.Holds made := fun _ done =>
    h.left.of_worksIn free (worksIn_makeDirectory isBase h.left free leads done)
  have right : ∀ made, fs'.makeDirectory path' = .ok made → s.Holds made := fun _ done =>
    h.right.of_worksIn free' (worksIn_makeDirectory isBase h.right free' leads' done)
  unfold FileSystem.makeDirectory at left right ⊢
  rw [slot] at left ⊢
  rw [slot'] at right ⊢
  cases r with
  | error cause => exact .error rfl
  | ok rel =>
    dsimp only [Except.map, bind, Except.bind] at left right ⊢
    rw [h.own rel] at left ⊢
    cases there : fs'.get? (s.root name' ++ rel) with
    | some entry => exact .error rfl
    | none =>
      rw [there] at left right
      exact .ok (h.put (left _ rfl) (right _ rfl))

theorem agree_write (contents : Utf8.Bytes) :
    Agree (s.Mirrors name name') Eq (fs.write path contents) (fs'.write path' contents) := by
  obtain ⟨r, walked, walked'⟩ := exists_walk isBase h free free' leads leads' leads.namesNoUp
  rw [← leads.namingPieces_eq free.isRunName.filled] at walked
  rw [← leads'.namingPieces_eq free'.isRunName.filled] at walked'
  have left : ∀ made, fs.write path contents = .ok made → s.Holds made := fun _ done =>
    h.left.of_worksIn free (worksIn_write isBase h.left free leads done)
  have right : ∀ made, fs'.write path' contents = .ok made → s.Holds made := fun _ done =>
    h.right.of_worksIn free' (worksIn_write isBase h.right free' leads' done)
  have last := leads.getLast?_eq_slash_iff leads' free.isRunName free'.isRunName
  unfold FileSystem.write at left right ⊢
  rw [← bind_assoc, walked] at left ⊢
  rw [← bind_assoc, walked'] at right ⊢
  cases r with
  | error cause => exact .error rfl
  | ok rel =>
    dsimp only [Except.map, bind, Except.bind] at left right ⊢
    by_cases slash : path.toList.getLast? = some '/'
    · rw [if_pos slash, if_pos (last.mp slash)]
      exact .error rfl
    · rw [if_neg slash] at left ⊢
      rw [if_neg (mt last.mpr slash)] at right ⊢
      rw [h.own rel] at left ⊢
      rcases there : fs'.get? (s.root name' ++ rel) with _ | _ | ⟨bytes, executable⟩ | target <;>
        rw [there] at left right
      · exact .ok (h.put (left _ rfl) (right _ rfl))
      · exact .error rfl
      · exact .ok (h.put (left _ rfl) (right _ rfl))
      · exact .ok (h.put (left _ rfl) (right _ rfl))

theorem agree_removeDirectory :
    Agree (s.Mirrors name name') Eq (fs.removeDirectory path) (fs'.removeDirectory path') := by
  obtain ⟨r, found, found'⟩ := exists_entryAt isBase h free free' leads leads'
  have left : ∀ made, fs.removeDirectory path = .ok made → s.Holds made := fun _ done =>
    h.left.of_worksIn free (worksIn_removeDirectory isBase h.left free leads done)
  have right : ∀ made, fs'.removeDirectory path' = .ok made → s.Holds made := fun _ done =>
    h.right.of_worksIn free' (worksIn_removeDirectory isBase h.right free' leads' done)
  unfold FileSystem.removeDirectory at left right ⊢
  rw [found] at left ⊢
  rw [found'] at right ⊢
  rcases r with cause | ⟨rel, _ | ⟨bytes, executable⟩ | target⟩
  · exact .error rfl
  · exact .ok (h.prune (left _ rfl) (right _ rfl))
  · exact .error rfl
  · exact .ok (h.prune (left _ rfl) (right _ rfl))

/-- The two have the same result, and leave what looks the same. -/
def Matches (s : Site) (name name' : String) (ended ended' : FileSystem × Except IoFault Unit) :
    Prop :=
  s.Mirrors name name' ended.1 ended'.1 ∧ ended.2 = ended'.2

theorem matches_makeHere :
    s.Matches name name' (fs.makeHere path) (fs'.makeHere path') := by
  have agree := agree_makeDirectory isBase h free free' leads leads'
  have same := isDirectory_eq isBase h free free' leads leads'
  unfold FileSystem.makeHere
  rw [same]
  generalize fs.makeDirectory path = r at agree ⊢
  generalize fs'.makeDirectory path' = r' at agree ⊢
  rcases agree with mirrors | same
  · exact ⟨mirrors, rfl⟩
  · subst same
    split
    next => contradiction
    next => split <;> exact ⟨h, rfl⟩
    next => exact ⟨h, rfl⟩

end

section

variable (isBase : s.IsBase base) (free : s.IsFree name) (free' : s.IsFree name')

include isBase free free'

/-- The directories above are made as well, but no further up than the root. -/
theorem matches_makeFirst (n : Nat) :
    ∀ {rest : List (List Char)} {path path' : String} {fs fs' : FileSystem},
      s.Mirrors name name' fs fs' → Leads base name rest path → Leads base name' rest path' →
        Path.trimBody rest = rest →
          s.Matches name name' (fs.makeFirst (Path.ancestorsUpTo n path))
            (fs'.makeFirst (Path.ancestorsUpTo n path')) := by
  induction n with
  | zero => exact fun h _ _ _ => ⟨h, rfl⟩
  | succ n ih =>
    intro rest path path' fs fs' h leads leads' trimmed
    have filled := Path.ne_empty_of_isAbsolute (leads.isAbsolute isBase.absolute)
    have filled' := Path.ne_empty_of_isAbsolute (leads'.isAbsolute isBase.absolute)
    have agree := agree_makeDirectory isBase h free free' leads leads'
    have here := matches_makeHere isBase h free free' leads leads'
    have absent : fs.makeDirectory path = .error .notFound ↔
        fs'.makeDirectory path' = .error .notFound := by
      generalize fs.makeDirectory path = r at agree ⊢
      generalize fs'.makeDirectory path' = r' at agree ⊢
      rcases agree with _ | same
      · simp
      · simp [same]
    rw [Path.ancestorsUpTo, Path.ancestorsUpTo, FileSystem.makeFirst_cons filled,
      FileSystem.makeFirst_cons filled']
    by_cases missing : fs.makeDirectory path = .error .notFound
    · rw [if_pos missing, if_pos (absent.mp missing)]
      have more : Path.trimBody rest ≠ [] := by
        rintro none
        obtain rfl : rest = [] := trimmed.symm.trans none
        exact makeDirectory_root_ne_notFound isBase h.left free.isRunName leads missing
      obtain ⟨above, found, up⟩ :=
        leads.exists_parent isBase.absolute free.isRunName.isName more
      obtain ⟨above', found', up'⟩ :=
        leads'.exists_parent isBase.absolute free'.isRunName.isName more
      rw [found, found']
      have first := ih h up up' (Path.trimBody_trimBody _)
      dsimp only
      generalize fs.makeFirst (Path.ancestorsUpTo n above) = ended at first ⊢
      generalize fs'.makeFirst (Path.ancestorsUpTo n above') = ended' at first ⊢
      obtain ⟨made, result⟩ := ended
      obtain ⟨made', result'⟩ := ended'
      obtain ⟨mirrors, same⟩ := first
      obtain rfl : result = result' := same
      cases result with
      | error cause => exact ⟨mirrors, rfl⟩
      | ok done => exact matches_makeHere isBase mirrors free free' leads leads'
    · rw [if_neg missing, if_neg (mt absent.mpr missing)]
      exact here

theorem matches_makeDirectories (h : s.Mirrors name name' fs fs')
    (leads : Leads base name rest path) (leads' : Leads base name' rest path')
    (trimmed : Path.trimBody rest = rest) :
    s.Matches name name' (fs.makeDirectories path) (fs'.makeDirectories path') := by
  unfold FileSystem.makeDirectories Path.ancestors
  rw [leads.length_components_eq leads' free.isRunName free'.isRunName isBase.absolute]
  exact matches_makeFirst isBase free free' _ h leads leads' trimmed

theorem mirrors_clear (h : s.Mirrors name name' fs fs') {l l' : Layout}
    (leads : Leads base name rest l.binaryDir) (leads' : Leads base name' rest l'.binaryDir) :
    s.Mirrors name name' (l.clear fs).files (l'.clear fs').files where
  left := h.left.of_worksIn free (worksIn_clear isBase h.left free leads)
  right := h.right.of_worksIn free' (worksIn_clear isBase h.right free' leads')
  own rel := by
    have removable : ∀ artifact, Layout.IsRemovable l.binaryDir artifact ↔
        Layout.IsRemovable l'.binaryDir artifact := by
      have further : ∀ {artifact}, IsName artifact →
          (Path.IsUsable (Path.join l.binaryDir artifact) ↔
            Path.IsUsable (Path.join l'.binaryDir artifact)) := fun isName =>
        (leads.join free.isRunName.isName isName.descends).isUsable_iff
          (leads'.join free'.isRunName.isName isName.descends)
          free.isRunName free'.isRunName isBase.absolute
      exact fun artifact => ⟨fun h => ⟨h.isName, (further h.isName).mp h.usable, h.fits⟩,
        fun h => ⟨h.isName, (further h.isName).mpr h.usable, h.fits⟩⟩
    obtain ⟨r, found, found'⟩ := exists_find isBase h free free' leads leads'
    by_cases directory : ∃ here, r = .ok (here, .directory)
    · obtain ⟨here, rfl⟩ := directory
      have there := isFoundAt isBase (h.left.isOpen free) free leads found
      have there' := isFoundAt isBase (h.right.isOpen free') free' leads' found'
      refine Option.ext fun entry => ?_
      rw [Layout.get?_clear there h.left.tree, Layout.get?_clear there' h.right.tree, h.own rel]
      simp only [removable, List.append_assoc, List.prefix_append_right_inj]
    · have nowhere : ∀ (inside : Location → Location) place,
          r.map (fun e => (inside e.1, e.2)) ≠ .ok (place, .directory) := by
        rintro inside place same
        rcases r with cause | ⟨here, entry⟩
        · cases same
        · obtain rfl := (Prod.mk.inj (Except.ok.inj same)).2
          exact directory ⟨here, rfl⟩
      rw [Layout.clear_of_not_found l (found ▸ nowhere (s.root name ++ ·)),
        Layout.clear_of_not_found l' (found' ▸ nowhere (s.root name' ++ ·)), h.own rel]

end

end Site

end BasicBlocks
