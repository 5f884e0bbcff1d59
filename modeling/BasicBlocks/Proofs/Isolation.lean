import BasicBlocks.Proofs.OwnRoots

/-!
# Isolation

A process is confined to a root if none of its steps changes anything else, and two processes
simulate each other from two roots if each step of the one does to what it sees what the same step
of the other does. Both hold of an isolated run as soon as they hold of its tool.
-/

namespace BasicBlocks

open BasicBlocks.Path (Leads)

namespace Site

variable {s : Site} {name name' : String}

section

variable {ε δ α β ε' δ' α' β' : Type}

/-- Each step of the process, whatever it finds, changes only what is inside of the root, and makes
no links there. -/
inductive Confines (s : Site) (name : String) : Process ε α → Prop
  | ended (result : Except ε α) : Confines s name (.ended result)
  | step {after : FileSystem → FileSystem} {next : FileSystem → Process ε α}
      (inside : ∀ fs, s.Holds fs → s.WorksIn name fs (after fs))
      (later : ∀ fs, s.Holds fs → Confines s name (next fs)) : Confines s name (.step after next)

/-- Step by step, two processes do the same where they see the same, and their results belong
together. -/
inductive Simulates (s : Site) (name name' : String) (Q : Except ε α → Except δ β → Prop) :
    Process ε α → Process δ β → Prop
  | ended {result : Except ε α} {result' : Except δ β} (h : Q result result') :
      Simulates s name name' Q (.ended result) (.ended result')
  | step {after after' : FileSystem → FileSystem} {next : FileSystem → Process ε α}
      {next' : FileSystem → Process δ β}
      (kept : ∀ fs fs', s.Mirrors name name' fs fs' →
        s.Mirrors name name' (after fs) (after' fs'))
      (later : ∀ fs fs', s.Mirrors name name' fs fs' →
        Simulates s name name' Q (next fs) (next' fs')) :
      Simulates s name name' Q (.step after next) (.step after' next')

namespace Confines

theorem onEnding {p : Process ε α} {f : Except ε α → Process δ β} (h : s.Confines name p)
    (then_ : ∀ result, s.Confines name (f result)) : s.Confines name (p.onEnding f) := by
  induction h with
  | ended result => exact then_ result
  | step inside later ih => exact .step inside ih

theorem bind {p : Process ε α} {f : α → Process ε β} (h : s.Confines name p)
    (then_ : ∀ a, s.Confines name (f a)) : s.Confines name (p >>= f) :=
  h.onEnding fun
    | .ok a => then_ a
    | .error e => .ended (.error e)

theorem mapFault {p : Process ε α} (h : s.Confines name p) (g : ε → δ) :
    s.Confines name (p.mapFault g) :=
  h.onEnding fun _ => .ended _

theorem ensuring {p : Process ε α} {last : Process Empty Unit} (h : s.Confines name p)
    (h' : s.Confines name last) : s.Confines name (p.ensuring last) :=
  h.onEnding fun _ => h'.onEnding fun _ => .ended _

theorem ask_bind {g : FileSystem → α} {f : α → Process ε β}
    (h : ∀ fs, s.Holds fs → s.Confines name (f (g fs))) :
    s.Confines name (Process.ask g >>= f) :=
  .step (fun fs _ => .refl name fs) h

/-- What is told alike of all that the process can find. -/
theorem tell_bind {g : FileSystem → Except ε α} {k : ε → δ} {f : α → Process δ β} {a : α}
    (told : ∀ fs, s.Holds fs → g fs = .ok a) (h : s.Confines name (f a)) :
    s.Confines name ((Process.tell g).mapFault k >>= f) := by
  refine .step (fun fs _ => .refl name fs) fun fs holds => ?_
  simp only [told fs holds]
  exact h

theorem change {f : FileSystem → Except ε FileSystem} (h : ∀ fs made, s.Holds fs →
    f fs = .ok made → s.WorksIn name fs made) :
    s.Confines name (Process.change f) := by
  refine .step (fun fs holds => ?_) fun _ _ => .ended _
  cases changed : f fs with
  | error e => exact .refl name fs
  | ok made => exact h fs made holds changed

theorem changePartly {f : FileSystem → FileSystem × Except ε Unit} (h : ∀ fs, s.Holds fs →
    s.WorksIn name fs (f fs).1) : s.Confines name (Process.changePartly f) :=
  .step h fun _ _ => .ended _

theorem attempt {f : FileSystem → FileSystem} (h : ∀ fs, s.Holds fs →
    s.WorksIn name fs (f fs)) : s.Confines name (Process.attempt f) :=
  .step h fun _ _ => .ended _

end Confines

namespace Simulates

variable {Q : Except ε α → Except δ β → Prop} {Q' : Except ε' α' → Except δ' β' → Prop}
  {R : α → β → Prop} {E : ε → δ → Prop} {p : Process ε α} {p' : Process δ β}

theorem onEnding (h : s.Simulates name name' Q p p') {f : Except ε α → Process ε' α'}
    {f' : Except δ β → Process δ' β'} (then_ : ∀ result result', Q result result' →
      s.Simulates name name' Q' (f result) (f' result')) :
    s.Simulates name name' Q' (p.onEnding f) (p'.onEnding f') := by
  induction h with
  | ended h => exact then_ _ _ h
  | step kept later ih => exact .step kept ih

theorem bind {R' : α' → β' → Prop} (h : s.Simulates name name' (Agree R E) p p')
    {f : α → Process ε α'} {f' : β → Process δ β'}
    (then_ : ∀ a b, R a b → s.Simulates name name' (Agree R' E) (f a) (f' b)) :
    s.Simulates name name' (Agree R' E) (p >>= f) (p' >>= f') :=
  h.onEnding fun _ _ agree => by
    cases agree with
    | ok related => exact then_ _ _ related
    | error related => exact .ended (.error related)

theorem mapFault {E' : ε' → δ' → Prop} (h : s.Simulates name name' (Agree R E) p p')
    {g : ε → ε'} {g' : δ → δ'} (faults : ∀ e e', E e e' → E' (g e) (g' e')) :
    s.Simulates name name' (Agree R E') (p.mapFault g) (p'.mapFault g') :=
  h.onEnding fun _ _ agree => by
    cases agree with
    | ok related => exact .ended (.ok related)
    | error related => exact .ended (.error (faults _ _ related))

theorem ensuring {last last' : Process Empty Unit} (h : s.Simulates name name' Q p p')
    {P : Except Empty Unit → Except Empty Unit → Prop} (h' : s.Simulates name name' P last last') :
    s.Simulates name name' Q (p.ensuring last) (p'.ensuring last') :=
  h.onEnding fun _ _ related => h'.onEnding fun _ _ _ => .ended related

/-- What cannot fail agrees with what cannot fail. -/
theorem infallibly {p : Process Empty α} {p' : Process Empty β}
    (h : s.Simulates name name' (fun _ _ => True) p p') :
    s.Simulates name name' (Agree (fun _ _ => True) E) (p.mapFault Empty.elim)
      (p'.mapFault Empty.elim) :=
  h.onEnding fun result result' _ => by
    cases result with
    | error impossible => exact impossible.elim
    | ok a =>
      cases result' with
      | error impossible => exact impossible.elim
      | ok b => exact .ended (.ok trivial)

theorem ask_bind {g : FileSystem → α} {g' : FileSystem → β} {f : α → Process ε α'}
    {f' : β → Process δ β'} {Q : Except ε α' → Except δ β' → Prop}
    (h : ∀ fs fs', s.Mirrors name name' fs fs' →
      s.Simulates name name' Q (f (g fs)) (f' (g' fs'))) :
    s.Simulates name name' Q (Process.ask g >>= f) (Process.ask g' >>= f') :=
  .step (fun _ _ mirrors => mirrors) h

theorem tell_bind {g : FileSystem → Except ε α} {k : ε → ε'} {f f' : α → Process ε' β'}
    {Q : Except ε' β' → Except ε' β' → Prop} {a : α}
    (told : ∀ fs, s.Holds fs → g fs = .ok a) (h : s.Simulates name name' Q (f a) (f' a)) :
    s.Simulates name name' Q ((Process.tell g).mapFault k >>= f)
      ((Process.tell g).mapFault k >>= f') := by
  refine .step (fun _ _ mirrors => mirrors) fun fs fs' mirrors => ?_
  simp only [told fs mirrors.left, told fs' mirrors.right]
  exact h

theorem change {f : FileSystem → Except ε FileSystem} {f' : FileSystem → Except δ FileSystem}
    (h : ∀ fs fs', s.Mirrors name name' fs fs' →
      Agree (s.Mirrors name name') E (f fs) (f' fs')) :
    s.Simulates name name' (Agree (fun _ _ => True) E) (Process.change f) (Process.change f') := by
  refine .step (fun fs fs' mirrors => ?_) fun fs fs' mirrors => ?_ <;>
    have agree := h fs fs' mirrors <;>
    generalize f fs = changed at agree ⊢ <;>
    generalize f' fs' = changed' at agree ⊢
  · rcases agree with mirrors' | _
    · exact mirrors'
    · exact mirrors
  · rcases agree with _ | related
    · exact .ended (.ok trivial)
    · exact .ended (.error related)

theorem changePartly {f : FileSystem → FileSystem × Except ε Unit}
    {f' : FileSystem → FileSystem × Except δ Unit}
    (h : ∀ fs fs', s.Mirrors name name' fs fs' → s.Mirrors name name' (f fs).1 (f' fs').1 ∧
      Agree (fun _ _ => True) E (f fs).2 (f' fs').2) :
    s.Simulates name name' (Agree (fun _ _ => True) E) (Process.changePartly f)
      (Process.changePartly f') :=
  .step (fun fs fs' mirrors => (h fs fs' mirrors).1) fun fs fs' mirrors =>
    .ended (h fs fs' mirrors).2

theorem attempt {E : Empty → Empty → Prop} {f f' : FileSystem → FileSystem}
    (h : ∀ fs fs', s.Mirrors name name' fs fs' → s.Mirrors name name' (f fs) (f' fs')) :
    s.Simulates name name' (Agree (fun _ _ => True) E) (Process.attempt f) (Process.attempt f') :=
  .step h fun _ _ _ => .ended (.ok trivial)

end Simulates

end

/-! ## Layouts below a root -/

section

variable {base tool : String} (drawn : IsRunName name) (descends : Path.Descends tool)

include drawn descends

theorem leads_instructionFacts :
    Leads base name (Path.unslashed (Layout.toolSteps tool) ++ Path.pieces instructionFactsName)
      (Layout.ofRoot (Path.join base name) tool).instructionFacts := by
  rw [Layout.instructionFacts_ofRoot]
  exact (Layout.leads_binaryDir base drawn.isName descends).join drawn.isName ⟨by decide, by decide⟩

theorem leads_blockFacts :
    Leads base name (Path.unslashed (Layout.toolSteps tool) ++ Path.pieces blockFactsName)
      (Layout.ofRoot (Path.join base name) tool).blockFacts := by
  rw [Layout.blockFacts_ofRoot]
  exact (Layout.leads_binaryDir base drawn.isName descends).join drawn.isName ⟨by decide, by decide⟩

end

end Site

/-! ## Isolated runs -/

/-- A fault with the paths below the run's root named as in another layout. -/
def Fault.renamed (l l' : Layout) : Fault → Fault
  | .scratch path cause => .scratch (if path = l.binaryDir then l'.binaryDir else path) cause
  | fault => fault.relocate l l'

/-- The scratch directory as a run at a site sees it, as long as it does. -/
def IsolatedRun.baseAt (r : IsolatedRun) (s : Site) : String :=
  (s.files.absolute r.config.scratchDir).toOption.getD r.config.scratchDir

/-- A run that is to make its root at a site. -/
structure Site.Hosts (s : Site) (r : IsolatedRun) : Prop where
  isolated : r.config.isolateRuns = true
  seen : s.files.absolute r.config.scratchDir = .ok (r.baseAt s)
  found : s.files.find (r.baseAt s) = .ok (s.place, .directory)
  descends : Path.Descends r.tool.name

theorem Site.Hosts.isBase {s : Site} {r : IsolatedRun} (h : s.Hosts r) : s.IsBase (r.baseAt s) :=
  ⟨FileSystem.isAbsolute_of_absolute h.seen, h.found⟩

namespace IsolatedRun

/-- The layout of a run at a site, below the root of this name. -/
def layoutAt (r : IsolatedRun) (s : Site) (name : String) : Layout :=
  r.layout (r.baseAt s) name

/-- The tool changes only what is inside of the run's root, and makes no links there. -/
structure KeepsToRoot (r : IsolatedRun) (s : Site) (name : String) : Prop where
  run : s.Confines name (r.tool.run r.binary (r.layoutAt s name))
  version : s.Confines name r.tool.version

/-- A fault below one root is that below another, but for the root's name. -/
def SameFault (r : IsolatedRun) (s : Site) (name name' : String) (e e' : Fault) : Prop :=
  e = e'.renamed (r.layoutAt s name') (r.layoutAt s name)

/-- The tool does below one root what it does below another, by what it finds there and outside of
all roots. -/
structure WorksAlike (r : IsolatedRun) (s : Site) (name name' : String) : Prop where
  run : s.Simulates name name' (Agree (fun _ _ => True) (r.SameFault s name name'))
    (r.tool.run r.binary (r.layoutAt s name)) (r.tool.run r.binary (r.layoutAt s name'))
  version : s.Simulates name name' (fun _ _ => True) r.tool.version r.tool.version

/-! ### Tools done in one step -/

theorem keepsToRoot_ofTool {r : IsolatedRun} {s : Site} {name : String} {t : Tool}
    (tool : r.tool = .ofTool t)
    (run : ∀ fs, s.Holds fs → s.WorksIn name fs (t.run r.binary (r.layoutAt s name) fs).files)
    (version : ∀ fs, s.Holds fs → s.WorksIn name fs (t.version fs).files) :
    r.KeepsToRoot s name := by
  constructor <;> rw [tool]
  · exact .step run fun _ _ => .ended _
  · exact .step version fun _ _ => .ended _

theorem worksAlike_ofTool {r : IsolatedRun} {s : Site} {name name' : String} {t : Tool}
    (tool : r.tool = .ofTool t)
    (run : ∀ fs fs', s.Mirrors name name' fs fs' →
      s.Mirrors name name' (t.run r.binary (r.layoutAt s name) fs).files
          (t.run r.binary (r.layoutAt s name') fs').files ∧
        Agree (fun _ _ => True) (r.SameFault s name name')
          (t.run r.binary (r.layoutAt s name) fs).result
          (t.run r.binary (r.layoutAt s name') fs').result)
    (version : ∀ fs fs', s.Mirrors name name' fs fs' →
      s.Mirrors name name' (t.version fs).files (t.version fs').files) :
    r.WorksAlike s name name' := by
  constructor <;> rw [tool]
  · exact .step (fun fs fs' mirrors => (run fs fs' mirrors).1) fun fs fs' mirrors =>
      .ended (run fs fs' mirrors).2
  · exact .step version fun _ _ _ => .ended trivial

/-! ### In one root -/

section

variable {r : IsolatedRun} {s : Site} {name : String}

theorem leads_root (drawn : IsRunName name) :
    Leads (r.baseAt s) name [] (r.layoutAt s name).root :=
  Path.leads_join _ drawn.isName

variable (hosts : s.Hosts r)

include hosts

theorem leads_binaryDir (drawn : IsRunName name) :
    Leads (r.baseAt s) name (Layout.toolSteps r.tool.name)
      (r.layoutAt s name).binaryDir :=
  Layout.leads_binaryDir _ drawn.isName hosts.descends

theorem confines_release (free : s.IsFree name) :
    s.Confines name (r.release (r.layoutAt s name)) := by
  have drawn := free.isRunName
  unfold release
  split
  next =>
    refine .bind (.attempt fun fs holds => ?_) fun _ => .attempt fun fs holds => ?_
    · exact Site.worksIn_clear hosts.isBase holds free (leads_binaryDir hosts drawn)
    · cases removed : fs.removeDirectory (r.layoutAt s name).root with
      | error cause => exact .refl name fs
      | ok made =>
        exact Site.worksIn_removeDirectory hosts.isBase holds free (leads_root drawn) removed
  next => exact .ended _

omit hosts in
theorem confines_locate (path : String) : s.Confines name (locate path) :=
  .ask_bind fun fs _ => by split <;> exact .ended _

omit hosts in
theorem confines_work (keeps : r.KeepsToRoot s name) :
    s.Confines name (r.work (r.layoutAt s name)) := by
  refine keeps.run.bind fun run => ?_
  refine (confines_locate _).bind fun _ => (confines_locate _).bind fun _ => ?_
  refine .ask_bind fun _ _ => .ask_bind fun _ _ => ?_
  exact .bind (.ended _) fun _ => (keeps.version.mapFault _).bind fun _ => .ended _

/-- An isolated run is confined to its root if its tool is. -/
theorem confines_process (free : s.IsFree name) (keeps : r.KeepsToRoot s name) :
    s.Confines name (r.process name) := by
  have drawn := free.isRunName
  unfold process
  split
  next =>
    refine .tell_bind (fun fs holds =>
      FileSystem.absolute_of_kept holds.current holds.kept hosts.seen) ?_
    refine .bind (.mapFault (.changePartly fun fs holds => ?_) _) fun _ => ?_
    · rw [Site.makeDirectories_base hosts.isBase holds]
      exact .refl name fs
    refine .bind (.mapFault (.change fun fs made holds done => ?_) _) fun _ => ?_
    · exact Site.worksIn_makeDirectory hosts.isBase holds free (leads_root drawn) done
    refine .bind (.mapFault (.changePartly fun fs holds => ?_) _) fun _ => ?_
    · exact Site.worksIn_makeDirectories hosts.isBase holds free (leads_binaryDir hosts drawn)
    · exact (confines_work keeps).ensuring (confines_release hosts free)
  next => exact .ended _

end

/-! ### From two roots -/

theorem reconcile_ne_scratch (instructions blocks : FactFile) (space : AddressSpace)
    (scope : Scope) (path : String) (cause : IoFault) :
    (reconcile instructions blocks space scope).result.mapError (·.fault) ≠
      .error (.scratch path cause) := by
  have read_ne : ∀ {α : Type} (reader : Facts.RowReader α) (file : FactFile),
      (file.read reader space).2 ≠ .error (.scratch path cause) := by
    intro α reader file
    unfold FactFile.read
    cases file.contents with
    | none => simp
    | some bytes =>
      dsimp only
      rcases (Facts.read reader space bytes).result with ⟨_ | _⟩ | _ <;>
        simp [Except.mapError, Facts.TableFault.at]
  have first := read_ne Facts.instructionRow instructions
  have second := read_ne Facts.blockRow blocks
  rw [reconcile_result]
  cases read : (instructions.read Facts.instructionRow space).2 with
  | error fault =>
    rw [read] at first
    exact fun same => first (congrArg Except.error (Except.error.inj same))
  | ok table =>
    cases read' : (blocks.read Facts.blockRow space).2 with
    | error fault =>
      rw [read'] at second
      exact fun same => second (congrArg Except.error (Except.error.inj same))
    | ok table' =>
      dsimp only
      cases (populate table' table).2 with
      | error gap => simp [Except.mapError, Population.Gap.fault]
      | ok populated => simp [Except.mapError]

section

variable {r : IsolatedRun} {s : Site} {name name' : String} (hosts : s.Hosts r)

theorem sameFault_missingInstructions :
    r.SameFault s name name' (.missingFacts (r.layoutAt s name).instructionFacts)
      (.missingFacts (r.layoutAt s name').instructionFacts) :=
  congrArg Fault.missingFacts Layout.counterpart_instructionFacts.symm

theorem sameFault_missingBlocks :
    r.SameFault s name name' (.missingFacts (r.layoutAt s name).blockFacts)
      (.missingFacts (r.layoutAt s name').blockFacts) :=
  congrArg Fault.missingFacts
    (Layout.counterpart_blockFacts (Layout.instructionFacts_ne_blockFacts _ _)).symm

theorem sameFault_binaryDir (cause : IoFault) :
    r.SameFault s name name' (.scratch (r.layoutAt s name).binaryDir cause)
      (.scratch (r.layoutAt s name').binaryDir cause) :=
  congrArg (Fault.scratch · cause) (if_pos rfl).symm

include hosts

theorem sameFault_base (drawn' : IsRunName name') (cause : IoFault) :
    r.SameFault s name name' (.scratch (r.baseAt s) cause)
      (.scratch (r.baseAt s) cause) := by
  have different := (leads_binaryDir hosts drawn').ne_base (Layout.toolSteps_ne_nil _)
  exact congrArg (Fault.scratch · cause) (if_neg different).symm

variable (free : s.IsFree name) (free' : s.IsFree name')

include free free'

theorem simulates_release {E : Empty → Empty → Prop} :
    s.Simulates name name' (Agree (fun _ _ => True) E) (r.release (r.layoutAt s name))
      (r.release (r.layoutAt s name')) := by
  have drawn := free.isRunName
  have drawn' := free'.isRunName
  unfold release
  split
  next =>
    refine .bind (.attempt fun fs fs' mirrors => ?_) fun _ _ _ => .attempt fun fs fs' mirrors => ?_
    · exact Site.mirrors_clear hosts.isBase free free' mirrors (leads_binaryDir hosts drawn)
        (leads_binaryDir hosts drawn')
    · have agree := Site.agree_removeDirectory hosts.isBase mirrors free free'
        (leads_root drawn) (leads_root drawn')
      generalize fs.removeDirectory (r.layoutAt s name).root = removed at agree ⊢
      generalize fs'.removeDirectory (r.layoutAt s name').root = removed' at agree ⊢
      rcases agree with mirrors' | _
      · exact mirrors'
      · exact mirrors
  next => exact .ended (.ok trivial)

omit hosts free free' in
theorem simulates_locate {path path' : String}
    (same : ∀ fs fs', s.Mirrors name name' fs fs' → fs.read path = fs'.read path')
    (fault : r.SameFault s name name' (.missingFacts path) (.missingFacts path')) :
    s.Simulates name name' (Agree (fun _ _ => True) (r.SameFault s name name')) (locate path)
      (locate path') := by
  refine .ask_bind fun fs fs' mirrors => ?_
  rw [FileSystem.isFile_eq, FileSystem.isFile_eq, same fs fs' mirrors]
  split
  next => exact .ended (.ok trivial)
  next => exact .ended (.error fault)

omit hosts free free' in
/-- The same fact files are reconciled in the same way below either root. -/
theorem agree_reconcile (instructions blocks : Option Utf8.Bytes) :
    Agree Eq (r.SameFault s name name')
      ((reconcile ⟨(r.layoutAt s name).instructionFacts, instructions⟩
        ⟨(r.layoutAt s name).blockFacts, blocks⟩ (.ofHeader r.header)
        r.config.scope).result.mapError (·.fault))
      ((reconcile ⟨(r.layoutAt s name').instructionFacts, instructions⟩
        ⟨(r.layoutAt s name').blockFacts, blocks⟩ (.ofHeader r.header)
        r.config.scope).result.mapError (·.fault)) := by
  have apart : (r.layoutAt s name').instructionFacts ≠ (r.layoutAt s name').blockFacts :=
    Layout.instructionFacts_ne_blockFacts _ _
  have moved := @Layout.reconcile_relocate _ (r.layoutAt s name) apart (.ofHeader r.header)
    r.config.scope instructions blocks
  have noScratch := reconcile_ne_scratch ⟨(r.layoutAt s name').instructionFacts, instructions⟩
    ⟨(r.layoutAt s name').blockFacts, blocks⟩ (.ofHeader r.header) r.config.scope
  rw [moved]
  generalize (reconcile ⟨(r.layoutAt s name').instructionFacts, instructions⟩ _ _ _).result.mapError
    (·.fault) = result at noScratch ⊢
  cases result with
  | ok reconciled => exact .ok rfl
  | error fault =>
    refine .error ?_
    cases fault with
    | scratch path cause => exact absurd rfl (noScratch path cause)
    | _ => rfl

theorem simulates_work (works : r.WorksAlike s name name') :
    s.Simulates name name'
      (Agree (fun m m' => Extractor.reconciled m = Extractor.reconciled m')
        (r.SameFault s name name'))
      (r.work (r.layoutAt s name)) (r.work (r.layoutAt s name')) := by
  have readInstructions : ∀ fs fs', s.Mirrors name name' fs fs' →
      fs.read (r.layoutAt s name).instructionFacts =
        fs'.read (r.layoutAt s name').instructionFacts := fun fs fs' mirrors =>
    Site.read_eq hosts.isBase mirrors free free'
      (Site.leads_instructionFacts free.isRunName hosts.descends)
      (Site.leads_instructionFacts free'.isRunName hosts.descends)
  have readBlocks : ∀ fs fs', s.Mirrors name name' fs fs' →
      fs.read (r.layoutAt s name).blockFacts = fs'.read (r.layoutAt s name').blockFacts :=
    fun fs fs' mirrors => Site.read_eq hosts.isBase mirrors free free'
      (Site.leads_blockFacts free.isRunName hosts.descends)
      (Site.leads_blockFacts free'.isRunName hosts.descends)
  refine works.run.bind fun run run' _ => ?_
  refine (simulates_locate readInstructions sameFault_missingInstructions).bind fun _ _ _ => ?_
  refine (simulates_locate readBlocks sameFault_missingBlocks).bind fun _ _ _ => ?_
  refine .ask_bind fun fs fs' mirrors => .ask_bind fun later later' mirrors' => ?_
  rw [Extractor.factFile, Extractor.factFile, Extractor.factFile, Extractor.factFile,
    readInstructions fs fs' mirrors, readBlocks later later' mirrors']
  have reconciled : Agree Eq (r.SameFault s name name') _ _ := agree_reconcile
    (fs'.read (r.layoutAt s name').instructionFacts).toOption
    (later'.read (r.layoutAt s name').blockFacts).toOption
  refine (Site.Simulates.ended reconciled).bind fun tables tables' same => ?_
  exact works.version.infallibly.bind fun _ _ _ => .ended (.ok (by rw [same]; rfl))

/-- An isolated run simulates itself from another root if its tool does. -/
theorem simulates_process (works : r.WorksAlike s name name') :
    s.Simulates name name'
      (Agree (fun m m' => Extractor.reconciled m = Extractor.reconciled m')
        (r.SameFault s name name'))
      (r.process name) (r.process name') := by
  have drawn := free.isRunName
  have drawn' := free'.isRunName
  have isBase := hosts.isBase
  unfold process
  split
  next =>
    refine .tell_bind (fun fs holds =>
      FileSystem.absolute_of_kept holds.current holds.kept hosts.seen) ?_
    have based : s.Simulates name name' (Agree (fun _ _ => True) Eq)
        (Process.changePartly fun fs => fs.makeDirectories (r.baseAt s))
        (Process.changePartly fun fs =>
          fs.makeDirectories (r.baseAt s)) := by
      refine .changePartly fun fs fs' mirrors => ?_
      rw [Site.makeDirectories_base isBase mirrors.left,
        Site.makeDirectories_base isBase mirrors.right]
      exact ⟨mirrors, .ok trivial⟩
    have rooted : s.Simulates name name' (Agree (fun _ _ => True) Eq)
        (Process.change fun fs => fs.makeDirectory (r.layoutAt s name).root)
        (Process.change fun fs => fs.makeDirectory (r.layoutAt s name').root) :=
      .change fun fs fs' mirrors => Site.agree_makeDirectory isBase mirrors free free'
        (leads_root drawn) (leads_root drawn')
    have opened : s.Simulates name name' (Agree (fun _ _ => True) Eq)
        (Process.changePartly fun fs => fs.makeDirectories (r.layoutAt s name).binaryDir)
        (Process.changePartly fun fs => fs.makeDirectories (r.layoutAt s name').binaryDir) := by
      refine .changePartly fun fs fs' mirrors => ?_
      obtain ⟨mirrors', same⟩ := Site.matches_makeDirectories isBase free free' mirrors
        (leads_binaryDir hosts drawn) (leads_binaryDir hosts drawn') (Layout.trimBody_toolSteps _)
      refine ⟨mirrors', ?_⟩
      rw [same]
      cases (fs'.makeDirectories (r.layoutAt s name').binaryDir).2 with
      | ok made => exact .ok trivial
      | error cause => exact .error rfl
    refine (based.mapFault ?_).bind fun _ _ _ => ?_
    · rintro cause _ rfl
      exact sameFault_base hosts drawn' cause
    refine (rooted.mapFault ?_).bind fun _ _ _ => ?_
    · rintro cause _ rfl
      exact sameFault_base hosts drawn' cause
    refine (opened.mapFault ?_).bind fun _ _ _ => ?_
    · rintro cause _ rfl
      exact sameFault_binaryDir cause
    · exact (simulates_work hosts free free' works).ensuring
        (simulates_release hosts free free' (E := Eq))
  next => exact .ended (.error rfl)

end

end IsolatedRun

end BasicBlocks
