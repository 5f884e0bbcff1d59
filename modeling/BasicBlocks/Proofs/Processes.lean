import BasicBlocks.Proofs.Bystanders
import BasicBlocks.Proofs.Deposits

/-!
# Processes

A run as it goes on, one step after the other. Between two steps the files may be changed by
others; where nothing comes between, a process does what the task of the same run does.
-/

namespace BasicBlocks

/-- What is still to be done. A step changes the files at once, and how it goes on from there is
told by the files that it has found. -/
inductive Process (ε α : Type)
  | ended (result : Except ε α)
  | step (after : FileSystem → FileSystem) (next : FileSystem → Process ε α)

namespace Process

variable {ε δ α β : Type}

/-- What is done after a process, by its result. -/
def onEnding (p : Process ε α) (f : Except ε α → Process δ β) : Process δ β :=
  match p with
  | ended result => f result
  | step after next => step after fun fs => (next fs).onEnding f

instance : Monad (Process ε) where
  pure a := ended (.ok a)
  bind p f := p.onEnding fun
    | .ok a => f a
    | .error e => ended (.error e)

def fail (e : ε) : Process ε α := ended (.error e)

def ofExcept (r : Except ε α) : Process ε α := ended r

def ask (f : FileSystem → α) : Process ε α := step id fun fs => ended (.ok (f fs))

def tell (f : FileSystem → Except ε α) : Process ε α := step id fun fs => ended (f fs)

def change (f : FileSystem → Except ε FileSystem) : Process ε Unit :=
  step (fun fs => (f fs).toOption.getD fs) fun fs => ended ((f fs).map fun _ => ())

def changePartly (f : FileSystem → FileSystem × Except ε Unit) : Process ε Unit :=
  step (fun fs => (f fs).1) fun fs => ended (f fs).2

/-- Changes the files in one step, whatever comes of it. -/
def attempt (f : FileSystem → FileSystem) : Process Empty Unit := step f fun _ => ended (.ok ())

def mapFault (f : ε → δ) (p : Process ε α) : Process δ α :=
  p.onEnding fun result => ended (result.mapError f)

/-- `last` is done however `p` ends. -/
def ensuring (p : Process ε α) (last : Process Empty Unit) : Process ε α :=
  p.onEnding fun result => last.onEnding fun _ => ended result

/-- The files and the result in the end if nothing comes between the steps. -/
def alone : Process ε α → FileSystem → FileSystem × Except ε α
  | ended result, fs => (fs, result)
  | step after next, fs => (next fs).alone (after fs)

/-- The task that nothing comes between. It reports nothing. -/
def task (p : Process ε α) : Task ε α := fun fs => ⟨(p.alone fs).1, [], (p.alone fs).2⟩

/-- The files and what is left after the next step. What has ended stays as it is. -/
def move : FileSystem × Process ε α → FileSystem × Process ε α
  | (fs, ended result) => (fs, ended result)
  | (fs, step after next) => (after fs, next fs)

/-- How many steps are taken if nothing comes between them. -/
def steps : Process ε α → FileSystem → Nat
  | ended _, _ => 0
  | step after next, fs => (next fs).steps (after fs) + 1

theorem alone_iterate_move (n : Nat) (now : FileSystem × Process ε α) :
    (move^[n] now).2.alone (move^[n] now).1 = now.2.alone now.1 := by
  induction n generalizing now with
  | zero => rfl
  | succ n ih =>
    rw [Function.iterate_succ_apply, ih]
    obtain ⟨fs, result | ⟨after, next⟩⟩ := now <;> rfl

theorem exists_ended_of_steps_le {p : Process ε α} {fs : FileSystem} {n : Nat}
    (h : p.steps fs ≤ n) : ∃ result, (move^[n] (fs, p)).2 = ended result := by
  induction n generalizing p fs with
  | zero =>
    cases p with
    | ended result => exact ⟨result, rfl⟩
    | step after next => simp [steps] at h
  | succ n ih =>
    rw [Function.iterate_succ_apply]
    cases p with
    | ended result => exact ih (Nat.zero_le n)
    | step after next => exact ih (Nat.le_of_succ_le_succ h)

theorem alone_onEnding (p : Process ε α) (f : Except ε α → Process δ β) (fs : FileSystem) :
    (p.onEnding f).alone fs = (f (p.alone fs).2).alone (p.alone fs).1 := by
  induction p generalizing fs with
  | ended result => rfl
  | step after next ih => exact ih fs (after fs)

section

variable {p : Process ε α} {f : α → Process ε β} {fs fs' : FileSystem}

theorem alone_bind_of_ok {a : α} (h : p.alone fs = (fs', .ok a)) :
    (p >>= f).alone fs = (f a).alone fs' := by
  refine (alone_onEnding p _ fs).trans ?_
  rw [h]

theorem alone_bind_of_error {e : ε} (h : p.alone fs = (fs', .error e)) :
    (p >>= f).alone fs = (fs', .error e) := by
  refine (alone_onEnding p _ fs).trans ?_
  rw [h]
  rfl

theorem alone_ask_bind (g : FileSystem → α) (f : α → Process ε β) (fs : FileSystem) :
    (ask g >>= f).alone fs = (f (g fs)).alone fs := rfl

theorem alone_mapFault (g : ε → δ) (p : Process ε α) (fs : FileSystem) :
    (p.mapFault g).alone fs = ((p.alone fs).1, (p.alone fs).2.mapError g) :=
  alone_onEnding p _ fs

theorem alone_ensuring (p : Process ε α) (last : Process Empty Unit) (fs : FileSystem) :
    (p.ensuring last).alone fs = ((last.alone (p.alone fs).1).1, (p.alone fs).2) := by
  refine (alone_onEnding p _ fs).trans ?_
  exact alone_onEnding last _ _

end

end Process

theorem Layout.root_ofRoot (root tool : String) : (ofRoot root tool).root = root := rfl

/-- A tool with the steps that it takes, whatever it reports on the way. -/
structure SteppedTool where
  whole : Tool
  version : Process Empty (Option String)
  run : String → Layout → Process Fault ToolRun
  version_alone : ∀ fs, version.alone fs = ((whole.version fs).files, (whole.version fs).result)
  run_alone : ∀ binary layout fs, (run binary layout).alone fs =
    ((whole.run binary layout fs).files, (whole.run binary layout fs).result)

namespace SteppedTool

def name (t : SteppedTool) : String := t.whole.name

/-- Any tool, done in one step. -/
def ofTool (t : Tool) : SteppedTool where
  whole := t
  version := .step (fun fs => (t.version fs).files) fun fs => .ended (t.version fs).result
  run binary layout :=
    .step (fun fs => (t.run binary layout fs).files) fun fs =>
      .ended (t.run binary layout fs).result
  version_alone _ := rfl
  run_alone _ _ _ := rfl

/-- A tool that takes these steps, and reports nothing. -/
def ofProcesses (name displayName : String) (version : Process Empty (Option String))
    (run : String → Layout → Process Fault ToolRun) : SteppedTool where
  whole := ⟨name, displayName, version.task, fun binary layout => (run binary layout).task⟩
  version := version
  run := run
  version_alone _ := rfl
  run_alone _ _ _ := rfl

end SteppedTool

/-- A run that gets a root of its own, and what it is given. -/
structure IsolatedRun where
  tool : SteppedTool
  config : Config
  now : String
  binary : String
  header : Header

namespace IsolatedRun

open Process

def extractor (r : IsolatedRun) : Extractor := ⟨r.tool.whole, r.config⟩

/-- Fails for a fact file that is missing. -/
def locate (path : String) : Process Fault Unit := do
  if ← ask (·.isFile path) then return else fail (.missingFacts path)

/-- The run in its scratch space. -/
def work (r : IsolatedRun) (layout : Layout) : Process Fault Model := do
  let run ← r.tool.run r.binary layout
  locate layout.instructionFacts
  locate layout.blockFacts
  let instructions ← ask (Extractor.factFile · layout.instructionFacts)
  let blocks ← ask (Extractor.factFile · layout.blockFacts)
  let reconciled ← ofExcept
    ((reconcile instructions blocks (.ofHeader r.header) r.config.scope).result.mapError (·.fault))
  let version ← r.tool.version.mapFault Empty.elim
  return r.extractor.modelOf r.now run version reconciled

/-- Clears the tool's directory and removes the root, unless they are to be kept. -/
def release (r : IsolatedRun) (layout : Layout) : Process Empty Unit := do
  if r.config.cleanup then
    attempt fun fs => (layout.clear fs).files
    attempt fun fs => (fs.removeDirectory layout.root).toOption.getD fs

def makeDirectories (path : String) : Process Fault Unit :=
  (changePartly fun fs => fs.makeDirectories path).mapFault (.scratch path ·)

/-- The run in a root that it makes for itself. -/
def inRoot (r : IsolatedRun) (base : String) (layout : Layout) : Process Fault Model := do
  (change fun fs => fs.makeDirectory layout.root).mapFault (.scratch base ·)
  makeDirectories layout.binaryDir
  (r.work layout).ensuring (r.release layout)

/-- The layout below a root of this name. -/
def layout (r : IsolatedRun) (base name : String) : Layout :=
  .ofRoot (Path.join base name) r.tool.name

/-- The run in the order of its steps, with the name that is drawn for its root. -/
def process (r : IsolatedRun) (name : String) : Process Fault Model := do
  if r.header.isKnown then
    let base ← (tell fun fs => fs.absolute r.config.scratchDir).mapFault
      (.scratch r.config.scratchDir ·)
    makeDirectories base
    r.inRoot base (r.layout base name)
  else fail (.unknownFormat r.tool.name)

/-- What the run leaves and how it ends if no other run is there. -/
def alone (r : IsolatedRun) (name : String) (fs : FileSystem) :
    FileSystem × Except Fault Model :=
  (r.process name).alone fs

variable (r : IsolatedRun) (layout : Layout) (fs : FileSystem)

theorem alone_locate (path : String) :
    (locate path).alone fs =
      (fs, if fs.isFile path then .ok () else .error (.missingFacts path)) := by
  change (if fs.isFile path then pure () else fail (.missingFacts path) : Process Fault Unit).alone
    fs = _
  split <;> rfl

/-- Both fact files are looked for, the instructions' first. -/
theorem alone_locate_both (f : Process Fault Model) :
    (locate layout.instructionFacts >>= fun _ => locate layout.blockFacts >>= fun _ => f).alone fs =
      match layout.missing? fs with
      | some path => (fs, .error (.missingFacts path))
      | none => f.alone fs := by
  have first := alone_locate fs layout.instructionFacts
  have second := alone_locate fs layout.blockFacts
  rw [Layout.missing?, List.find?_cons, List.find?_cons, List.find?_nil]
  cases instructions : fs.isFile layout.instructionFacts with
  | false =>
    rw [instructions] at first
    exact alone_bind_of_error first
  | true =>
    rw [instructions] at first
    rw [alone_bind_of_ok first]
    cases blocks : fs.isFile layout.blockFacts with
    | false =>
      rw [blocks] at second
      exact alone_bind_of_error second
    | true =>
      rw [blocks] at second
      exact alone_bind_of_ok second

/-- The work of a run alone is that of its extractor. -/
theorem alone_work :
    (r.work layout).alone fs =
      ((r.extractor.work r.now r.binary r.header layout .init fs).files,
        ((r.extractor.work r.now r.binary r.header layout .init fs).result.map (·.1)).mapError
          (·.fault)) := by
  have ends := r.extractor.work_ends r.now r.binary r.header layout fs
  generalize r.extractor.work r.now r.binary r.header layout .init fs = ending at ends ⊢
  have tooled := r.tool.run_alone r.binary layout fs
  change Extractor.WorkEnds _ _ _ _ (r.tool.whole.run r.binary layout fs) _ at ends
  generalize r.tool.whole.run r.binary layout fs = ran at ends tooled
  obtain ⟨after, events, result⟩ := ran
  cases ends with
  | toolFailed failed =>
    obtain rfl : result = .error _ := failed
    exact alone_bind_of_error tooled
  | factsMissing finished missing =>
    obtain rfl : result = .ok _ := finished
    rw [work, alone_bind_of_ok tooled, alone_locate_both, missing]
    rfl
  | notReconciled finished located failed =>
    obtain rfl : result = .ok _ := finished
    rw [work, alone_bind_of_ok tooled, alone_locate_both, located]
    dsimp only
    rw [alone_ask_bind, alone_ask_bind]
    have refused := congrArg (fun result => (after, result.mapError (·.fault))) failed
    exact alone_bind_of_error refused
  | done finished located reconciled probed =>
    obtain rfl : result = .ok _ := finished
    rw [work, alone_bind_of_ok tooled, alone_locate_both, located]
    dsimp only
    rw [alone_ask_bind, alone_ask_bind]
    have given := congrArg (fun result => (after, result.mapError (·.fault))) reconciled
    refine (alone_bind_of_ok given).trans (alone_bind_of_ok ?_)
    rw [alone_mapFault, r.tool.version_alone]
    exact Prod.ext rfl (congrArg (Except.mapError Empty.elim) probed)

theorem alone_release :
    ((r.release layout).alone fs).1 =
      (RunScratch.release ⟨layout, some layout.root, r.config.cleanup⟩ fs).files := by
  unfold release
  cases r.config.cleanup with
  | false => rfl
  | true =>
    change ((layout.clear fs).files.removeDirectory layout.root).toOption.getD
      (layout.clear fs).files = _
    cases removed : (layout.clear fs).files.removeDirectory layout.root with
    | ok left =>
      rw [RunScratch.release_own removed]
      rfl
    | error cause =>
      rw [RunScratch.release_own_kept removed]
      rfl

theorem alone_makeDirectories {fs made : FileSystem} {path : String}
    (h : fs.makeDirectories path = (made, .ok ())) :
    (makeDirectories path).alone fs = (made, .ok ()) := by
  rw [makeDirectories, alone_mapFault]
  change ((fs.makeDirectories path).1, (fs.makeDirectories path).2.mapError _) = _
  rw [h]
  rfl

theorem alone_makeDirectories_of_error {fs made : FileSystem} {path : String} {cause : IoFault}
    (h : fs.makeDirectories path = (made, .error cause)) :
    (makeDirectories path).alone fs = (made, .error (.scratch path cause)) := by
  rw [makeDirectories, alone_mapFault]
  change ((fs.makeDirectories path).1, (fs.makeDirectories path).2.mapError _) = _
  rw [h]
  rfl

theorem alone_makeRoot {fs made : FileSystem} {base root : String}
    (h : fs.makeDirectory root = .ok made) :
    ((change fun fs => fs.makeDirectory root).mapFault (Fault.scratch base ·)).alone fs =
      (made, .ok ()) := by
  rw [alone_mapFault]
  change ((fs.makeDirectory root).toOption.getD fs,
    ((fs.makeDirectory root).map fun _ => ()).mapError _) = _
  rw [h]
  rfl

theorem alone_makeRoot_of_error {fs : FileSystem} {base root : String} {cause : IoFault}
    (h : fs.makeDirectory root = .error cause) :
    ((change fun fs => fs.makeDirectory root).mapFault (Fault.scratch base ·)).alone fs =
      (fs, .error (.scratch base cause)) := by
  rw [alone_mapFault]
  change ((fs.makeDirectory root).toOption.getD fs,
    ((fs.makeDirectory root).map fun _ => ()).mapError _) = _
  rw [h]
  rfl

theorem alone_absolute {fs : FileSystem} {dir : String} {result : Except IoFault String}
    (h : fs.absolute dir = result) :
    ((tell fun fs => fs.absolute dir).mapFault (Fault.scratch dir ·)).alone fs =
      (fs, result.mapError (.scratch dir ·)) := by
  rw [alone_mapFault]
  change (fs, (fs.absolute dir).mapError _) = _
  rw [h]

/-- A run that nothing comes between is the extraction. -/
theorem alone_eq_extract (isolated : r.config.isolateRuns = true) (draw : Draw) :
    r.alone (RunScratch.rootName draw) fs =
      ((r.extractor.extract r.now draw r.binary r.header fs).files,
        (r.extractor.extract r.now draw r.binary r.header fs).result) := by
  rw [Extractor.extract_eq, alone, process]
  cases known : r.header.isKnown with
  | false =>
    rw [Extractor.stages_of_unknown _ _ _ _ _ _ known]
    rfl
  | true =>
    rw [if_pos rfl]
    have refused := fun made events fault =>
      @Extractor.stages_of_refused r.extractor r.now draw r.binary r.header fs known fault made
        events
    have given := fun scratch made events =>
      @Extractor.stages_of_created r.extractor r.now draw r.binary r.header fs known scratch made
        events
    cases seen : fs.absolute r.config.scratchDir with
    | error cause =>
      rw [alone_bind_of_error (alone_absolute seen),
        refused _ _ _ (RunScratch.create_of_no_current seen _ _ _ draw)]
      rfl
    | ok base =>
    rw [alone_bind_of_ok (alone_absolute seen)]
    have ends : RunScratch.CreateEnds fs _ _ _ _ _ (r.extractor.scratch draw fs) :=
      RunScratch.create_ends seen r.tool.name r.config.isolateRuns r.config.cleanup draw
    generalize r.extractor.scratch draw fs = ending at ends refused given
    rw [isolated] at ends
    have laid : r.layout base (RunScratch.rootName draw) =
      .ofRoot (RunScratch.ownRoot base draw) r.tool.name := rfl
    cases ends with
    | noBase failed =>
      rw [alone_bind_of_error (alone_makeDirectories_of_error failed), refused _ _ _ rfl]
      rfl
    | noRoot based failed =>
      rw [alone_bind_of_ok (alone_makeDirectories based), refused _ _ _ rfl]
      exact alone_bind_of_error (alone_makeRoot_of_error failed)
    | noOwnLayout based owned failed =>
      rw [alone_bind_of_ok (alone_makeDirectories based), refused _ _ _ rfl]
      refine (alone_bind_of_ok (alone_makeRoot owned)).trans ?_
      exact alone_bind_of_error (alone_makeDirectories_of_error failed)
    | isolated based owned laidOut =>
      rw [alone_bind_of_ok (alone_makeDirectories based), given _ _ _ rfl]
      refine (alone_bind_of_ok (alone_makeRoot owned)).trans ?_
      refine (alone_bind_of_ok (alone_makeDirectories laidOut)).trans ?_
      rw [alone_ensuring, alone_release, alone_work, laid, Layout.root_ofRoot]

end IsolatedRun

end BasicBlocks
