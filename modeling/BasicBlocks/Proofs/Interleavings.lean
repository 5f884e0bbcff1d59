import Mathlib.Data.Fintype.EquivFin
import BasicBlocks.Proofs.Scribes

/-!
# Interleavings

Runs that share a scratch directory, with their steps taken in any order. Each run goes on as it
does alone: what it has done after some steps of its own is what it does in as many steps when no
other run is there, and the other runs only come between.
-/

namespace BasicBlocks

/-- Files, and what is left of every process that works on them. -/
structure Joint (ι ε α : Type) where
  files : FileSystem
  left : ι → Process ε α

namespace Joint

variable {ι ε α : Type} [DecidableEq ι]

/-- The next step of one of the processes. -/
def move (now : Joint ι ε α) (i : ι) : Joint ι ε α :=
  let moved := Process.move (now.files, now.left i)
  ⟨moved.1, Function.update now.left i moved.2⟩

/-- The processes take their steps in the order of a schedule. -/
def play (now : Joint ι ε α) (schedule : List ι) : Joint ι ε α := schedule.foldl move now

def IsOver (now : Joint ι ε α) : Prop := ∀ i, ∃ result, now.left i = .ended result

theorem left_move_self (now : Joint ι ε α) (i : ι) :
    (now.move i).left i = (Process.move (now.files, now.left i)).2 :=
  Function.update_self i _ now.left

theorem left_move_of_ne (now : Joint ι ε α) {i j : ι} (h : j ≠ i) :
    (now.move i).left j = now.left j :=
  Function.update_of_ne h _ now.left

end Joint

namespace Site

variable {s : Site} {ι ε δ α β : Type} {name name' : String}

/-! ## What one step keeps -/

theorem Confines.worksIn_move {p : Process ε α} (h : s.Confines name p) {fs : FileSystem}
    (holds : s.Holds fs) : s.WorksIn name fs (Process.move (fs, p)).1 := by
  cases h with
  | ended result => exact .refl name fs
  | step inside later => exact inside fs holds

theorem Confines.move {p : Process ε α} (h : s.Confines name p) {fs : FileSystem}
    (holds : s.Holds fs) : s.Confines name (Process.move (fs, p)).2 := by
  cases h with
  | ended result => exact .ended result
  | step inside later => exact later fs holds

/-- Of two processes with their files, each is as far as the other. -/
structure Follows (s : Site) (name name' : String) (Q : Except ε α → Except δ β → Prop)
    (now : FileSystem × Process ε α) (twin : FileSystem × Process δ β) : Prop where
  mirrors : s.Mirrors name name' now.1 twin.1
  simulates : s.Simulates name name' Q now.2 twin.2

theorem Follows.move {Q : Except ε α → Except δ β → Prop} {now : FileSystem × Process ε α}
    {twin : FileSystem × Process δ β} (h : s.Follows name name' Q now twin) :
    s.Follows name name' Q (Process.move now) (Process.move twin) := by
  obtain ⟨fs, p⟩ := now
  obtain ⟨fs', p'⟩ := twin
  obtain ⟨mirrors, simulates⟩ := h
  cases simulates with
  | ended related => exact ⟨mirrors, .ended related⟩
  | step kept later => exact ⟨kept fs fs' mirrors, later fs fs' mirrors⟩

/-! ## Roots for all -/

/-- Names for the roots of several runs: none is in use, and no two are the same. -/
structure Assigns (s : Site) (names : ι → String) : Prop where
  free : ∀ i, s.IsFree (names i)
  distinct : Function.Injective names

/-- Every process is confined to its root, and nothing has changed outside of these roots. -/
structure Separates (s : Site) (names : ι → String) (now : Joint ι ε α) : Prop where
  holds : s.Holds now.files
  confined : ∀ i, s.Confines (names i) (now.left i)
  outside : ∀ p, (∀ i, ¬ s.root (names i) <+: p) → now.files.get? p = s.files.get? p

section

variable [DecidableEq ι] {names : ι → String} (assigns : s.Assigns names) {now : Joint ι ε α}
  (h : s.Separates names now)

include assigns h

theorem Separates.move (i : ι) : s.Separates names (now.move i) := by
  have changes := (h.confined i).worksIn_move h.holds
  refine ⟨h.holds.of_worksIn (assigns.free i) changes, fun j => ?_, fun p out => ?_⟩
  · by_cases same : j = i
    · subst same
      rw [now.left_move_self]
      exact (h.confined j).move h.holds
    · rw [now.left_move_of_ne same]
      exact h.confined j
  · exact (changes.outside p (out i)).trans (h.outside p out)

theorem Separates.play (schedule : List ι) : s.Separates names (now.play schedule) := by
  induction schedule generalizing now with
  | nil => exact h
  | cons i schedule ih => exact ih (h.move assigns i)

/-- A process is as far as its twin is after as many steps of its own, whatever the others do. -/
theorem Separates.follows_play (i : ι) {Q : Except ε α → Except δ β → Prop}
    {twin : FileSystem × Process δ β}
    (follows : s.Follows (names i) name' Q (now.files, now.left i) twin) (schedule : List ι) :
    s.Follows (names i) name' Q ((now.play schedule).files, (now.play schedule).left i)
      (Process.move^[schedule.count i] twin) := by
  induction schedule generalizing now twin with
  | nil => exact follows
  | cons j schedule ih =>
    by_cases same : j = i
    · subst same
      rw [List.count_cons_self, Function.iterate_succ_apply]
      refine ih (h.move assigns j) ?_
      rw [now.left_move_self]
      exact follows.move
    · rw [List.count_cons_of_ne same]
      refine ih (h.move assigns j) ?_
      rw [now.left_move_of_ne (Ne.symm same)]
      refine ⟨follows.mirrors.of_worksIn (assigns.free j) ?_ ?_, follows.simulates⟩
      · exact fun equal => same (assigns.distinct equal)
      · exact (h.confined j).worksIn_move h.holds

end

theorem Simulates.ended_iff {Q : Except ε α → Except δ β → Prop} {p : Process ε α}
    {p' : Process δ β} (h : s.Simulates name name' Q p p') :
    (∃ result, p = .ended result) ↔ ∃ result', p' = .ended result' := by
  cases h <;> simp

theorem Simulates.of_ended {Q : Except ε α → Except δ β → Prop} {result : Except ε α}
    {p' : Process δ β} (h : s.Simulates name name' Q (.ended result) p') :
    ∃ result', p' = .ended result' ∧ Q result result' := by
  cases h with
  | ended related => exact ⟨_, rfl, related⟩

/-- The same files, but for the names of the roots. -/
structure SameButNames (s : Site) (names names' : ι → String) (fs fs' : FileSystem) : Prop where
  current : fs.current = fs'.current
  own : ∀ i rel, fs.get? (s.root (names i) ++ rel) = fs'.get? (s.root (names' i) ++ rel)
  outside : ∀ p, (∀ i, ¬ s.root (names i) <+: p) → (∀ i, ¬ s.root (names' i) <+: p) →
    fs.get? p = fs'.get? p

theorem SameButNames.get?_eq {names : ι → String} {fs fs' : FileSystem}
    (h : s.SameButNames names names fs fs') (p : Location) : fs.get? p = fs'.get? p := by
  by_cases inside : ∃ i, s.root (names i) <+: p
  · obtain ⟨i, rel, rfl⟩ := inside
    exact h.own i rel
  · have out := not_exists.mp inside
    exact h.outside p out out

/-- All runs at the start, with a name for the root of each. -/
def opening (s : Site) (runs : ι → IsolatedRun) (names : ι → String) : Joint ι Fault Model :=
  ⟨s.files, fun i => (runs i).process (names i)⟩

end Site

/-! ## Isolated runs -/

theorem Layout.counterpart_self (l : Layout) (path : String) : l.counterpart l path = path := by
  unfold counterpart
  split
  next same => exact same.symm
  next =>
    split
    next same => exact same.symm
    next => rfl

theorem Fault.renamed_self (l : Layout) (e : Fault) : e.renamed l l = e := by
  cases e with
  | scratch path cause =>
    refine congrArg (Fault.scratch · cause) ?_
    split
    next same => exact same.symm
    next => rfl
  | missingFacts path => exact congrArg Fault.missingFacts (l.counterpart_self path)
  | malformedFact path line fault =>
    exact congrArg (Fault.malformedFact · line fault) (l.counterpart_self path)
  | _ => rfl

namespace IsolatedRun

/-- The tool of a run changes nothing outside of the run's root and makes no links in it, and what
the other runs have in theirs makes no difference to it. -/
structure IsContained (r : IsolatedRun) (s : Site) (name : String) : Prop where
  keeps : r.KeepsToRoot s name
  unmoved : r.WorksAlike s name name

/-- What a run has given and left is what a run with another name for its root gives and leaves,
but for the name. -/
structure EndsAs (r : IsolatedRun) (s : Site) (name name' : String)
    (ended ended' : FileSystem × Except Fault Model) : Prop where
  result : ended.2.map Extractor.reconciled = (ended'.2.map Extractor.reconciled).mapError
    (·.renamed (r.layoutAt s name') (r.layoutAt s name))
  own : ∀ rel, ended.1.get? (s.root name ++ rel) = ended'.1.get? (s.root name' ++ rel)

/-- A run among others has ended as it does alone: with the name that it has, with any other that
may be drawn, and as an extraction that draws it. -/
structure EndsAsAlone (r : IsolatedRun) (s : Site) (name : String)
    (ended : FileSystem × Except Fault Model) : Prop where
  result : ended.2.map Extractor.reconciled = (r.alone name s.files).2.map Extractor.reconciled
  own : ∀ rel,
    ended.1.get? (s.root name ++ rel) = (r.alone name s.files).1.get? (s.root name ++ rel)
  renamed : ∀ name', s.IsFree name' → r.WorksAlike s name name' →
    r.EndsAs s name name' ended (r.alone name' s.files)
  extracted : ∀ draw, s.IsFree (RunScratch.rootName draw) →
    r.WorksAlike s name (RunScratch.rootName draw) →
      r.EndsAs s name (RunScratch.rootName draw) ended
        ((r.extractor.extract r.now draw r.binary r.header s.files).files,
          (r.extractor.extract r.now draw r.binary r.header s.files).result)

section

variable {r : IsolatedRun} {s : Site} {name name' : String}

/-- A run is as far as its twin at the start. -/
theorem follows_process (hosts : s.Hosts r) (free : s.IsFree name) (free' : s.IsFree name')
    (works : r.WorksAlike s name name') :
    s.Follows name name'
      (Agree (fun m m' => Extractor.reconciled m = Extractor.reconciled m')
        (r.SameFault s name name'))
      (s.files, r.process name) (s.files, r.process name') :=
  ⟨Site.mirrors_files free free', simulates_process hosts free free' works⟩

/-- Whatever is as far as a run's twin, and has ended, has ended as the twin does alone. -/
theorem endsAs_of_follows {fs : FileSystem} {result : Except Fault Model} {n : Nat}
    (follows : s.Follows name name'
      (Agree (fun m m' => Extractor.reconciled m = Extractor.reconciled m')
        (r.SameFault s name name'))
      (fs, .ended result) (Process.move^[n] (s.files, r.process name'))) :
    r.EndsAs s name name' (fs, result) (r.alone name' s.files) := by
  obtain ⟨mirrors, simulates⟩ := follows
  obtain ⟨result', ended, agree⟩ := simulates.of_ended
  have alone : r.alone name' s.files =
      ((Process.move^[n] (s.files, r.process name')).1, result') := by
    have whole := Process.alone_iterate_move n (s.files, r.process name')
    rw [ended] at whole
    exact whole.symm
  rw [alone]
  refine ⟨?_, mirrors.own⟩
  cases agree with
  | ok same => exact congrArg Except.ok same
  | error same => exact congrArg Except.error same

end

end IsolatedRun

namespace Site

variable {ι : Type} {s : Site} {runs : ι → IsolatedRun} {names names' : ι → String}

/-- Each of the runs has a root of its own at the site, and its tool is contained there. -/
structure IsSharedBy (s : Site) (runs : ι → IsolatedRun) (names : ι → String) : Prop where
  hosts : ∀ i, s.Hosts (runs i)
  assigns : s.Assigns names
  contained : ∀ i, (runs i).IsContained s (names i)

namespace IsSharedBy

variable (shared : s.IsSharedBy runs names)

include shared

theorem separates_opening : s.Separates names (s.opening runs names) where
  holds := s.holds_files
  confined i := IsolatedRun.confines_process (shared.hosts i) (shared.assigns.free i)
    (shared.contained i).keeps
  outside _ _ := rfl

variable [DecidableEq ι] (schedule : List ι)

/-- A run that has ended among others has ended as a run alone with another name. -/
theorem endsAs_play {i : ι} {result : Except Fault Model}
    (ended : ((s.opening runs names).play schedule).left i = .ended result) {name : String}
    (free : s.IsFree name) (works : (runs i).WorksAlike s (names i) name) :
    (runs i).EndsAs s (names i) name (((s.opening runs names).play schedule).files, result)
      ((runs i).alone name s.files) := by
  have follows := shared.separates_opening.follows_play shared.assigns i
    (IsolatedRun.follows_process (shared.hosts i) (shared.assigns.free i) free works) schedule
  rw [ended] at follows
  exact IsolatedRun.endsAs_of_follows follows

theorem endsAsAlone_play {i : ι} {result : Except Fault Model}
    (ended : ((s.opening runs names).play schedule).left i = .ended result) :
    (runs i).EndsAsAlone s (names i)
      (((s.opening runs names).play schedule).files, result) := by
  have own := shared.endsAs_play schedule ended (shared.assigns.free i)
    (shared.contained i).unmoved
  refine ⟨?_, own.own, fun _ => shared.endsAs_play schedule ended,
    fun draw free works => ?_⟩
  · rw [own.result]
    cases ((runs i).alone (names i) s.files).2 with
    | ok m => rfl
    | error fault => exact congrArg Except.error (Fault.renamed_self _ fault)
  · have drawn := shared.endsAs_play schedule ended free works
    rwa [IsolatedRun.alone_eq_extract _ _ (shared.hosts i).isolated draw] at drawn

theorem exists_ended_play {i : ι}
    (enough : ((runs i).process (names i)).steps s.files ≤ schedule.count i) :
    ∃ result, ((s.opening runs names).play schedule).left i = .ended result := by
  have follows := shared.separates_opening.follows_play shared.assigns i
    (IsolatedRun.follows_process (shared.hosts i) (shared.assigns.free i) (shared.assigns.free i)
      (shared.contained i).unmoved) schedule
  exact follows.simulates.ended_iff.mpr (Process.exists_ended_of_steps_le enough)

/-- Finitely many runs can be brought to their end, whatever has been done of them. -/
theorem exists_isOver [Finite ι] :
    ∃ more, (((s.opening runs names).play schedule).play more).IsOver := by
  obtain ⟨_⟩ := nonempty_fintype ι
  let turns := fun i => List.replicate (((runs i).process (names i)).steps s.files) i
  refine ⟨(Finset.univ.toList.map turns).flatten, fun i => ?_⟩
  have member : turns i ∈ Finset.univ.toList.map turns :=
    List.mem_map_of_mem (Finset.mem_toList.mpr (Finset.mem_univ i))
  have enough := (List.sublist_flatten_of_mem member).count_le i
  rw [List.count_replicate_self] at enough
  rw [Joint.play, Joint.play, ← List.foldl_append]
  refine shared.exists_ended_play _ ?_
  rw [List.count_append]
  exact Nat.le_add_left_of_le enough

/-- Two orders in which all runs come to their end leave the same, but for the names. -/
theorem sameButNames_play (shared' : s.IsSharedBy runs names')
    (works : ∀ i, (runs i).WorksAlike s (names i) (names' i)) {schedule' : List ι}
    (finished : ((s.opening runs names).play schedule).IsOver)
    (finished' : ((s.opening runs names').play schedule').IsOver) :
    s.SameButNames names names' ((s.opening runs names).play schedule).files
      ((s.opening runs names').play schedule').files := by
  have reached := shared.separates_opening.play shared.assigns schedule
  have reached' := shared'.separates_opening.play shared'.assigns schedule'
  refine ⟨reached.holds.current.trans reached'.holds.current.symm, fun i rel => ?_,
    fun p out out' => (reached.outside p out).trans (reached'.outside p out').symm⟩
  -- Both are what the run leaves alone with the second name.
  obtain ⟨result, ended⟩ := finished i
  obtain ⟨result', ended'⟩ := finished' i
  have other := shared.endsAs_play schedule ended (shared'.assigns.free i) (works i)
  have own := shared'.endsAsAlone_play schedule' ended'
  exact (other.own rel).trans (own.own rel).symm

end IsSharedBy

end Site

/-- A scratch directory beside a binary. -/
def sharedFiles : FileSystem where
  current := []
  entries := [(["s"], .directory), (["b"], .file [1] false)]

def sharedSite : Site where
  files := sharedFiles
  tree := FileSystem.isTree_of_entries (by decide)
  place := ["s"]

/-- Writes both fact files, or the instructions alone. -/
def briefScribe (both : Bool) : Scribe where
  name := "tool"
  displayName := "Tool"
  version := none
  files _ :=
    (instructionFactsName, Utf8.encode "16\t1\tret\n") ::
      if both then [(blockFactsName, Utf8.encode "16\t1\t\n")] else []

/-- A run that removes what it has made, and one that fails and keeps it. -/
def sharingRun (both : Bool) : IsolatedRun where
  tool := (briefScribe both).tool
  config := { Config.default "/tmp" with scratchDir := "/s", cleanup := both }
  now := "now"
  binary := "/b"
  header := ⟨.pe, .executable, true, none, []⟩

def sharingName (both : Bool) : String := if both then "run-aaaaaa" else "run-bbbbbb"

/-- The runs take turns until the first has ended, whose last steps come at the end. -/
def sharingSchedule : List Bool :=
  (List.replicate 9 [true, false]).flatten ++ List.replicate 4 true

theorem assigns_sharingName : sharedSite.Assigns sharingName where
  free both := by
    cases both
    · exact ⟨⟨⟨"bbbbbb", by decide, List.forall_iff_forall_mem.mp (by decide)⟩, rfl⟩,
        by decide⟩
    · exact ⟨⟨⟨"aaaaaa", by decide, List.forall_iff_forall_mem.mp (by decide)⟩, rfl⟩,
        by decide⟩
  distinct both both' same := by
    revert both both'
    decide

theorem hosts_sharingRun (both : Bool) : sharedSite.Hosts (sharingRun both) where
  isolated := rfl
  seen := by
    revert both
    decide +kernel
  found := by
    revert both
    decide +kernel
  descends := (⟨by decide, by decide⟩ : Path.Descends "tool")

theorem isContained_sharingRun (both : Bool) :
    (sharingRun both).IsContained sharedSite (sharingName both) := by
  have descends : (briefScribe both).Descends := by
    intro _ f member
    rcases List.mem_cons.mp member with rfl | more
    · exact ⟨by decide, by decide⟩
    · cases both
      · exact absurd more List.not_mem_nil
      · obtain rfl := List.mem_singleton.mp more
        exact ⟨by decide, by decide⟩
  have offers : sharedSite.Offers "/b" :=
    ⟨by decide, (["b"], .file [1] false), by decide +kernel⟩
  have free := assigns_sharingName.free both
  exact ⟨Scribe.keepsToRoot (hosts_sharingRun both) rfl descends free,
    Scribe.worksAlike (hosts_sharingRun both) rfl descends offers free free⟩

end BasicBlocks
