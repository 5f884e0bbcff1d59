import BasicBlocks.Proofs.Runs

/-!
# Stages of a run

A run goes through its stages in their one order. It is aborted from the stage that it has reached,
once and last, exactly if it fails; and how it fails tells from which stage, and the stage how.
-/

namespace BasicBlocks

open Facts
open Utf8 (Bytes)

namespace Stage

/-- The stages of a run that is not aborted. -/
def course : List Stage :=
  [.init, .toolInvoked, .factsLocated, .instructionsParsed, .blocksParsed, .blocksPopulated, .done]

/-- The transitions of a run up to a stage. -/
def steps (stage : Stage) : List (Stage × Stage) :=
  (course.zip course.tail).takeWhile (·.1 ≠ stage)

theorem steps_isPrefix (stage : Stage) : stage.steps <+: done.steps := by
  cases stage <;> decide

end Stage

def Event.transition? : Event → Option (Stage × Stage)
  | .stageChanged left entered => some (left, entered)
  | _ => none

/-- The transitions among events. -/
def transitions (events : List Event) : List (Stage × Stage) := events.filterMap (·.transition?)

@[simp] theorem transitions_nil : transitions [] = [] := rfl

@[simp] theorem transitions_append (events later : List Event) :
    transitions (events ++ later) = transitions events ++ transitions later :=
  List.filterMap_append

@[simp] theorem transitions_cons (event : Event) (events : List Event) :
    transitions (event :: events) = event.transition?.toList ++ transitions events := by
  rw [transitions, List.filterMap_cons]
  cases event.transition? <;> rfl

theorem transitions_map_eq_nil {α : Type} {f : α → Event} (h : ∀ a, (f a).transition? = none)
    (l : List α) : transitions (l.map f) = [] := by
  simp [transitions, h]

/-! ## Tasks that report no transition -/

namespace Task

variable {ε δ α β : Type}

/-- Reports no transition. -/
def KeepsStage (t : Task ε α) : Prop := ∀ fs, transitions (t fs).events = []

theorem KeepsStage.bind {t : Task ε α} {f : α → Task ε β} (first : t.KeepsStage)
    (second : ∀ a, (f a).KeepsStage) : (t >>= f).KeepsStage := by
  intro fs
  rcases h : t fs with ⟨changed, events, fault | a⟩
  · have silent := first fs
    rw [h] at silent
    rw [bind_of_error h, silent]
  · have silent := first fs
    rw [h] at silent
    rw [bind_of_ok h, transitions_append, silent, second a changed, List.append_nil]

theorem keepsStage_pure (a : α) : (pure a : Task ε α).KeepsStage := fun _ => rfl

theorem keepsStage_ask (f : FileSystem → α) : (ask f : Task ε α).KeepsStage := fun _ => rfl

theorem keepsStage_report {event : Event} (h : event.transition? = none) :
    (report event : Task ε Unit).KeepsStage := by
  intro fs
  simp [report, h]

theorem keepsStage_change (f : FileSystem → Except ε FileSystem) : (change f).KeepsStage := by
  intro fs
  rw [change]
  cases f fs <;> rfl

theorem KeepsStage.outcome {t : Task ε α} (h : t.KeepsStage) :
    (t.outcome : Task δ (Except ε α)).KeepsStage := h

end Task

theorem keepsStage_removeArtifacts (paths : List String) :
    (Layout.removeArtifacts paths).KeepsStage := by
  induction paths with
  | nil => exact Task.keepsStage_pure 0
  | cons path rest ih =>
    refine (Task.keepsStage_change _).outcome.bind fun removed => ?_
    cases removed with
    | ok _ => exact ih
    | error cause =>
      exact (Task.keepsStage_report rfl).bind fun _ => ih.bind fun n => Task.keepsStage_pure (n + 1)

theorem keepsStage_clear (l : Layout) : l.clear.KeepsStage := by
  refine (Task.keepsStage_ask _).bind fun listed => ?_
  split
  · exact keepsStage_removeArtifacts _
  · exact Task.keepsStage_pure 0
  · exact (Task.keepsStage_report rfl).bind fun _ => Task.keepsStage_pure 1

theorem keepsStage_release (r : RunScratch) : r.release.KeepsStage := by
  unfold RunScratch.release
  split
  · refine (keepsStage_clear r.layout).bind fun _ => ?_
    split
    · exact Task.keepsStage_pure ()
    · refine (Task.keepsStage_change _).outcome.bind fun removed => ?_
      split
      · exact Task.keepsStage_pure ()
      · exact Task.keepsStage_report rfl
  · exact Task.keepsStage_pure ()

theorem keepsStage_create (dir tool : String) (isolate cleanup : Bool) (draw : Draw) :
    (RunScratch.create dir tool isolate cleanup draw).KeepsStage := by
  intro fs
  cases seen : fs.absolute dir with
  | error cause =>
    rw [RunScratch.create_of_no_current seen]
    rfl
  | ok base =>
    have ends := RunScratch.create_ends seen tool isolate cleanup draw
    generalize RunScratch.create dir tool isolate cleanup draw fs = ending at ends
    cases ends with
    | @shared made opened based laidOut =>
      exact keepsStage_clear (Layout.ofRoot base tool) opened
    | _ => rfl

/-! ## The tool -/

/-- The faults of a tool itself. -/
inductive Fault.IsTools : Fault → Prop
  | notStarted (tool : String) (cause : IoFault) : IsTools (.toolNotStarted tool cause)
  | failed (tool : String) (code : Option Int) (output : String) :
      IsTools (.toolFailed tool code output)
  | timedOut (tool : String) (seconds : Word) : IsTools (.toolTimedOut tool seconds)

namespace Tool

/-- A run of the tool fails with a fault of its own, if at all. -/
def FailsItself (t : Tool) : Prop :=
  ∀ binary layout fs fault, (t.run binary layout fs).result = .error fault → fault.IsTools

/-- The transitions of a run are not the tool's to report. -/
structure KeepsStage (t : Tool) : Prop where
  run : ∀ binary layout, (t.run binary layout).KeepsStage
  version : t.version.KeepsStage

end Tool

namespace Capture

/-- What is found out about a run reports no transition, and fails only with a fault of the tool. -/
structure Finding {α : Type} (t : Traced Fault α) : Prop where
  keepsStage : transitions t.events = []
  isTools : ∀ fault, t.result = .error fault → fault.IsTools

theorem finding_pure {α : Type} (a : α) : Finding (pure a) where
  keepsStage := rfl
  isTools := by rintro fault ⟨⟩

theorem Finding.bind {α β : Type} {t : Traced Fault α} {f : α → Traced Fault β} (first : Finding t)
    (second : ∀ a, Finding (f a)) : Finding (t >>= f) := by
  obtain ⟨events, result⟩ := t
  cases result with
  | error fault =>
    refine ⟨first.keepsStage, ?_⟩
    rintro _ ⟨⟩
    exact first.isTools fault rfl
  | ok a =>
    refine ⟨?_, (second a).isTools⟩
    show transitions (events ++ (f a).events) = []
    rw [transitions_append, first.keepsStage, (second a).keepsStage, List.append_nil]

theorem finding_conclude {α : Type} (tool : String) (limit : Nat)
    (verdict : Deadline.Verdict IoFault α) : Finding (conclude tool limit verdict) := by
  cases verdict with
  | finished a => exact finding_pure a
  | unanswered cause =>
    refine ⟨rfl, ?_⟩
    rintro fault ⟨⟩
    exact .notStarted tool cause
  | expired =>
    refine ⟨rfl, ?_⟩
    rintro fault ⟨⟩
    exact .timedOut tool _

theorem finding_ending (tool : String) (limit : Option Word) (a : Activity) :
    Finding (ending tool limit a) := by
  cases limit with
  | none => exact finding_pure _
  | some seconds => exact (finding_conclude tool _ _).bind fun code => finding_pure _

theorem finding_judge (tool : String) (limit : Option Word) (a : Activity) :
    Finding (judge tool limit a) := by
  refine (finding_ending tool limit a).bind fun ended => ?_
  split
  · exact finding_pure _
  · refine ⟨rfl, ?_⟩
    rintro fault ⟨⟩
    exact .failed tool _ _

theorem run_eq (host : Host) (tool : String) (limit : Option Word) (command : Command)
    (fs : FileSystem) :
    run host tool limit command fs =
      match host.start command fs with
      | .error cause =>
        ⟨fs, [.toolSpawning tool command.text], .error (.toolNotStarted tool cause)⟩
      | .ok activity =>
        let done := activity (limit.map fun s => s.toNat * 1000)
        ⟨done.files, .toolSpawning tool command.text :: (judge tool limit done).events,
          (judge tool limit done).result⟩ := by
  simp only [run, bind, Task.report, Task.ask]
  cases host.start command fs with
  | error cause => rfl
  | ok activity => rfl

theorem keepsStage_run (host : Host) (tool : String) (limit : Option Word) (command : Command) :
    (run host tool limit command).KeepsStage := by
  intro fs
  rw [run_eq]
  split
  · rfl
  · exact (finding_judge tool limit _).keepsStage

theorem keepsStage_probe (host : Host) (tool : String) (limit : Option Word)
    (command : Command) : (probe host tool limit command).KeepsStage := by
  refine (keepsStage_run host tool limit command).outcome.bind fun ran => ?_
  split
  · exact Task.keepsStage_pure _
  · exact (Task.keepsStage_report rfl).bind fun _ => Task.keepsStage_pure none

theorem isTools_of_run {host : Host} {tool : String} {limit : Option Word} {command : Command}
    {fs : FileSystem} {fault : Fault}
    (h : (run host tool limit command fs).result = .error fault) : fault.IsTools := by
  rw [run_eq] at h
  split at h
  · cases h
    exact .notStarted tool _
  · exact (finding_judge tool limit _).isTools fault h

end Capture

namespace Tool

theorem run_disassembler (host : Host) (launcher : Launcher) (limit : Option Word)
    (binary : String) (layout : Layout) (fs : FileSystem) :
    (disassembler host launcher limit).run binary layout fs =
      Capture.run host Disassembler.toolName limit
        (Disassembler.command launcher host.owner fs binary layout) fs :=
  Task.bind_of_silent rfl

theorem keepsStage_disassembler (host : Host) (launcher : Launcher) (limit : Option Word) :
    (disassembler host launcher limit).KeepsStage where
  run binary layout fs := by
    rw [run_disassembler]
    exact Capture.keepsStage_run _ _ _ _ fs
  version := Capture.keepsStage_probe _ _ _ _

theorem failsItself_disassembler (host : Host) (launcher : Launcher) (limit : Option Word) :
    (disassembler host launcher limit).FailsItself := by
  intro binary layout fs fault h
  rw [run_disassembler] at h
  exact Capture.isTools_of_run h

end Tool

/-! ## Transitions -/

/-- The stage at which a part of a run ends that gets to `goal` unless it fails. -/
def Stage.reached {α : Type} (goal : Stage) : Except Failure α → Stage
  | .ok _ => goal
  | .error failure => failure.stage

theorem transitions_read {α : Type} (reader : RowReader α) (space : AddressSpace)
    (file : FactFile) : transitions (file.read reader space).1 = [] := by
  rw [FactFile.read]
  cases file.contents with
  | none => rfl
  | some bytes => exact transitions_map_eq_nil (fun _ => rfl) _

theorem steps_reconcile (instructionFile blockFile : FactFile) (space : AddressSpace)
    (scope : Scope) :
    Stage.factsLocated.steps ++
        transitions (reconcile instructionFile blockFile space scope).events =
      (Stage.blocksPopulated.reached
        (reconcile instructionFile blockFile space scope).result).steps := by
  have populates : ∀ blocks instructions,
      transitions (populateTraced blocks instructions).1 = [] := fun _ _ =>
    transitions_map_eq_nil (fun _ => rfl) _
  have first := transitions_read instructionRow space instructionFile
  have second := transitions_read blockRow space blockFile
  rw [reconcile_eq, reconcileStages_eq]
  generalize instructionFile.read instructionRow space = read at first ⊢
  generalize blockFile.read blockRow space = read' at second ⊢
  obtain ⟨skipped, fault | instructions⟩ := read
  · rw [first]
    rfl
  obtain ⟨skipped', fault | blocks⟩ := read'
  · simp only [transitions_append, first, second]
    rfl
  have third := populates blocks instructions
  dsimp only
  generalize populateTraced blocks instructions = traced at third ⊢
  obtain ⟨overruns, fault | populated⟩ := traced
  · simp only [transitions_append, first, second, third]
    rfl
  · simp only [transitions_append, first, second, third]
    rfl

namespace Extractor

variable {x : Extractor} {now binary : String} {draw : Draw} {header : Header} {fs : FileSystem}

theorem steps_work (quiet : x.tool.KeepsStage) (layout : Layout) :
    transitions (x.work now binary header layout .init fs).events =
      (Stage.done.reached (x.work now binary header layout .init fs).result).steps := by
  have ends := x.work_ends now binary header layout fs
  generalize x.work now binary header layout .init fs = ending at ends ⊢
  have running := quiet.run binary layout fs
  have probing := quiet.version (x.tool.run binary layout fs).files
  have reconciling := steps_reconcile
    (factFile (x.tool.run binary layout fs).files layout.instructionFacts)
    (factFile (x.tool.run binary layout fs).files layout.blockFacts)
    (AddressSpace.ofHeader header) x.config.scope
  cases ends with
  | toolFailed failed =>
    simp only [transitions_cons, running]
    rfl
  | factsMissing finished missing =>
    simp only [List.cons_append, transitions_cons, transitions_append, running]
    rfl
  | notReconciled finished located failed =>
    rw [reconciliation] at failed
    rw [failed] at reconciling
    simp only [List.cons_append, transitions_cons, transitions_append, running]
    exact reconciling
  | done finished located reconciled probed =>
    rw [reconciliation] at reconciled
    rw [reconciled] at reconciling
    simp only [List.cons_append, transitions_cons, transitions_append, running, probing,
      List.append_nil]
    exact congrArg (· ++ [(.blocksPopulated, .done)]) reconciling

/-- The layout of a run and the files as its tool has left them, having ended well. -/
def Ran (x : Extractor) (draw : Draw) (binary : String) (fs : FileSystem) (layout : Layout)
    (after : FileSystem) : Prop :=
  ∃ scratch run, (x.scratch draw fs).result = .ok scratch ∧ scratch.layout = layout ∧
    (x.tool.run binary layout (x.scratch draw fs).files).result = .ok run ∧
    (x.tool.run binary layout (x.scratch draw fs).files).files = after

/-- The instruction table of a run, which its tool has left well-formed. -/
def InstructionsRead (x : Extractor) (draw : Draw) (binary : String) (header : Header)
    (fs : FileSystem) (layout : Layout) (after : FileSystem) (instructions : InstructionTable) :
    Prop :=
  x.Ran draw binary fs layout after ∧ ∃ bytes, after.read layout.instructionFacts = .ok bytes ∧
    (readInstructions (.ofHeader header) bytes).result = .ok instructions

/-- The stage from which a run on these files is aborted, and the fault it ends with. -/
inductive AbortsFrom (x : Extractor) (draw : Draw) (binary : String) (header : Header)
    (fs : FileSystem) : Stage → Fault → Prop
  | unknownFormat (unknown : header.isKnown = false) :
      AbortsFrom x draw binary header fs .init (.unknownFormat x.tool.name)
  | noScratch {path : String} {cause : IoFault}
      (refused : (x.scratch draw fs).result = .error (.scratch path cause)) :
      AbortsFrom x draw binary header fs .init (.scratch path cause)
  | toolFailed {scratch : RunScratch} {fault : Fault}
      (created : (x.scratch draw fs).result = .ok scratch)
      (failed : (x.tool.run binary scratch.layout (x.scratch draw fs).files).result =
        .error fault) :
      AbortsFrom x draw binary header fs .toolInvoked fault
  | factsMissing {layout : Layout} {after : FileSystem} {path : String}
      (ran : x.Ran draw binary fs layout after) (missing : layout.missing? after = some path) :
      AbortsFrom x draw binary header fs .toolInvoked (.missingFacts path)
  | malformedInstruction {layout : Layout} {after : FileSystem} {bytes : Bytes} {line : Nat}
      {fault : FactFault} (ran : x.Ran draw binary fs layout after)
      (found : after.read layout.instructionFacts = .ok bytes)
      (failed : (readInstructions (.ofHeader header) bytes).result =
        .error (.malformed line fault)) :
      AbortsFrom x draw binary header fs .factsLocated
        (.malformedFact layout.instructionFacts line fault)
  | unmappedInstruction {layout : Layout} {after : FileSystem} {bytes : Bytes} {r : Record}
      {address : Word} (ran : x.Ran draw binary fs layout after)
      (found : after.read layout.instructionFacts = .ok bytes)
      (failed : (readInstructions (.ofHeader header) bytes).result = .error (.unmapped address))
      (row : r ∈ records bytes)
      (offends : Offends instructionColumns (.ofHeader header) r (.unmapped address)) :
      AbortsFrom x draw binary header fs .factsLocated (.unmappedAddress address)
  | malformedBlock {layout : Layout} {after : FileSystem} {instructions : InstructionTable}
      {bytes : Bytes} {line : Nat} {fault : FactFault}
      (parsed : x.InstructionsRead draw binary header fs layout after instructions)
      (found : after.read layout.blockFacts = .ok bytes)
      (failed : (readBlocks (.ofHeader header) bytes).result = .error (.malformed line fault)) :
      AbortsFrom x draw binary header fs .instructionsParsed
        (.malformedFact layout.blockFacts line fault)
  | unmappedBlock {layout : Layout} {after : FileSystem} {instructions : InstructionTable}
      {bytes : Bytes} {r : Record} {address : Word}
      (parsed : x.InstructionsRead draw binary header fs layout after instructions)
      (found : after.read layout.blockFacts = .ok bytes)
      (failed : (readBlocks (.ofHeader header) bytes).result = .error (.unmapped address))
      (row : r ∈ records bytes)
      (offends : Offends blockColumns (.ofHeader header) r (.unmapped address)) :
      AbortsFrom x draw binary header fs .instructionsParsed (.unmappedAddress address)
  | gap {layout : Layout} {after : FileSystem} {instructions : InstructionTable} {bytes : Bytes}
      {blocks : BlockTable} {block address : Word}
      (parsed : x.InstructionsRead draw binary header fs layout after instructions)
      (found : after.read layout.blockFacts = .ok bytes)
      (blocksRead : (readBlocks (.ofHeader header) bytes).result = .ok blocks)
      (failed : (populate blocks instructions).2 = .error ⟨block, address⟩) :
      AbortsFrom x draw binary header fs .blocksParsed (.gap block address)

theorem Ran.unique {layout layout' : Layout} {after after' : FileSystem}
    (h : x.Ran draw binary fs layout after) (h' : x.Ran draw binary fs layout' after') :
    layout = layout' ∧ after = after' := by
  obtain ⟨scratch, run, created, rfl, _, rfl⟩ := h
  obtain ⟨scratch', run', created', rfl, _, rfl⟩ := h'
  obtain rfl : scratch = scratch' := Except.ok.inj (created.symm.trans created')
  exact ⟨rfl, rfl⟩

theorem Ran.paths_ne {layout : Layout} {after : FileSystem}
    (h : x.Ran draw binary fs layout after) :
    layout.instructionFacts ≠ layout.blockFacts := by
  obtain ⟨scratch, run, created, rfl, _⟩ := h
  obtain ⟨root, laidOut⟩ := RunScratch.layout_of_create created
  rw [laidOut]
  exact Layout.instructionFacts_ne_blockFacts root x.tool.name

/-- A table that cannot be read for one run can be read for none. -/
theorem InstructionsRead.not_failed {layout layout' : Layout} {after after' : FileSystem}
    {instructions : InstructionTable} {bytes : Bytes} {fault : TableFault}
    (parsed : x.InstructionsRead draw binary header fs layout after instructions)
    (ran : x.Ran draw binary fs layout' after')
    (found : after'.read layout'.instructionFacts = .ok bytes) :
    (readInstructions (.ofHeader header) bytes).result ≠ .error fault := by
  obtain ⟨ran', bytes', found', accepted⟩ := parsed
  obtain ⟨rfl, rfl⟩ := ran.unique ran'
  obtain rfl : bytes = bytes' := Except.ok.inj (found.symm.trans found')
  rw [accepted]
  exact fun same => nomatch same

theorem AbortsFrom.eq_toolInvoked {stage : Stage} {fault : Fault}
    (h : AbortsFrom x draw binary header fs stage fault) (own : fault.IsTools) :
    stage = .toolInvoked := by
  cases own <;> cases h <;> rfl

theorem AbortsFrom.of_malformed (own : x.tool.FailsItself) {stage : Stage} {path : String}
    {line : Nat} {fault : FactFault}
    (h : AbortsFrom x draw binary header fs stage (.malformedFact path line fault)) :
    ∃ layout after, x.Ran draw binary fs layout after ∧
      (stage = .factsLocated ∧ path = layout.instructionFacts ∨
        stage = .instructionsParsed ∧ path = layout.blockFacts) := by
  cases h with
  | toolFailed _ failed => cases own _ _ _ _ failed
  | malformedInstruction ran _ _ => exact ⟨_, _, ran, Or.inl ⟨rfl, rfl⟩⟩
  | malformedBlock parsed _ _ => exact ⟨_, _, parsed.1, Or.inr ⟨rfl, rfl⟩⟩

/-- The fault tells the stage. Constructors tell faults apart, but for those that the rows of either
file give rise to. -/
theorem AbortsFrom.stage_unique (own : x.tool.FailsItself) {stage stage' : Stage} {fault : Fault}
    (h : AbortsFrom x draw binary header fs stage fault)
    (h' : AbortsFrom x draw binary header fs stage' fault) : stage = stage' := by
  by_cases tools : fault.IsTools
  · exact (h.eq_toolInvoked tools).trans (h'.eq_toolInvoked tools).symm
  cases h with
  | toolFailed _ failed => exact absurd (own _ _ _ _ failed) tools
  | malformedInstruction ran _ _ =>
    obtain ⟨layout', after', ran', ⟨rfl, _⟩ | ⟨_, same⟩⟩ := h'.of_malformed own
    · rfl
    · obtain ⟨rfl, _⟩ := ran.unique ran'
      exact absurd same ran.paths_ne
  | malformedBlock parsed _ _ =>
    obtain ⟨layout', after', ran', ⟨_, same⟩ | ⟨rfl, _⟩⟩ := h'.of_malformed own
    · obtain ⟨rfl, _⟩ := parsed.1.unique ran'
      exact absurd same.symm parsed.1.paths_ne
    · rfl
  | unmappedInstruction ran found failed _ _ =>
    cases h' with
    | toolFailed _ failed => exact absurd (own _ _ _ _ failed) tools
    | unmappedInstruction _ _ _ _ _ => rfl
    | unmappedBlock parsed' _ _ _ _ => exact absurd failed (parsed'.not_failed ran found)
  | unmappedBlock parsed _ _ _ _ =>
    cases h' with
    | toolFailed _ failed => exact absurd (own _ _ _ _ failed) tools
    | unmappedInstruction ran' found' failed' _ _ =>
      exact absurd failed' (parsed.not_failed ran' found')
    | unmappedBlock _ _ _ _ _ => rfl
  | unknownFormat _ | noScratch _ | factsMissing _ _ | gap _ _ _ _ =>
    cases h' with
    | toolFailed _ failed => exact absurd (own _ _ _ _ failed) tools
    | _ => rfl

theorem reconciliation_aborts {layout : Layout} {after : FileSystem} {failure : Failure}
    (ran : x.Ran draw binary fs layout after) (located : layout.missing? after = none)
    (failed : (x.reconciliation header layout after).result = .error failure) :
    AbortsFrom x draw binary header fs failure.stage failure.fault := by
  obtain ⟨⟨instructionBytes, foundInstructions⟩, ⟨blockBytes, foundBlocks⟩⟩ :=
    Layout.missing?_eq_none_iff.mp located
  rw [reconciliation, factFile_of_read foundInstructions, factFile_of_read foundBlocks,
    reconcile_result] at failed
  dsimp only [FactFile.read] at failed
  cases instructionsRead : (Facts.read instructionRow (AddressSpace.ofHeader header)
      instructionBytes).result with
  | error fault =>
    rw [instructionsRead] at failed
    cases failed
    cases fault with
    | malformed line fault => exact .malformedInstruction ran foundInstructions instructionsRead
    | unmapped address =>
      obtain ⟨before, r, later, split, _, offends⟩ :=
        ((reads_instructions _ _).fault_iff _).mp instructionsRead
      exact .unmappedInstruction ran foundInstructions instructionsRead (by simp [split]) offends
  | ok instructions =>
    have parsed : x.InstructionsRead draw binary header fs layout after instructions :=
      ⟨ran, instructionBytes, foundInstructions, instructionsRead⟩
    rw [instructionsRead] at failed
    cases blocksRead : (Facts.read blockRow (AddressSpace.ofHeader header) blockBytes).result with
    | error fault =>
      rw [blocksRead] at failed
      cases failed
      cases fault with
      | malformed line fault => exact .malformedBlock parsed foundBlocks blocksRead
      | unmapped address =>
        obtain ⟨before, r, later, split, _, offends⟩ :=
          ((reads_blocks _ _).fault_iff _).mp blocksRead
        exact .unmappedBlock parsed foundBlocks blocksRead (by simp [split]) offends
    | ok blocks =>
      rw [blocksRead] at failed
      dsimp only [Except.mapError] at failed
      cases populated : (populate blocks instructions).2 with
      | error gap =>
        rw [populated] at failed
        cases failed
        exact .gap parsed foundBlocks blocksRead populated
      | ok _ =>
        rw [populated] at failed
        cases failed

theorem work_aborts {scratch : RunScratch} {failure : Failure}
    (created : (x.scratch draw fs).result = .ok scratch)
    (h : (x.work now binary header scratch.layout .init (x.scratch draw fs).files).result =
      .error failure) :
    AbortsFrom x draw binary header fs failure.stage failure.fault := by
  have ends := x.work_ends now binary header scratch.layout (x.scratch draw fs).files
  generalize x.work now binary header scratch.layout .init (x.scratch draw fs).files = ending
    at ends h
  cases ends with
  | toolFailed failed =>
    cases h
    exact .toolFailed created failed
  | factsMissing finished missing =>
    cases h
    exact .factsMissing ⟨scratch, _, created, rfl, finished, rfl⟩ missing
  | notReconciled finished located failed =>
    cases h
    exact reconciliation_aborts ⟨scratch, _, created, rfl, finished, rfl⟩ located failed
  | done _ _ _ _ => cases h

theorem steps_stages (quiet : x.tool.KeepsStage) :
    transitions (x.stages now draw binary header .init fs).events =
      (Stage.done.reached (x.stages now draw binary header .init fs).result).steps := by
  have creating : transitions (x.scratch draw fs).events = [] := keepsStage_create _ _ _ _ draw fs
  cases known : header.isKnown with
  | false =>
    rw [stages_of_unknown x now draw binary header fs known]
    rfl
  | true =>
    rcases made : x.scratch draw fs with ⟨opened, events, fault | scratch⟩
    · rw [made] at creating
      rw [stages_of_refused x now draw binary fs known made, creating]
      rfl
    · rw [made] at creating
      rw [stages_of_created x now draw binary fs known made]
      simp only [transitions_append, creating, steps_work quiet, keepsStage_release scratch _,
        List.nil_append, List.append_nil]

theorem stages_aborts {failure : Failure}
    (h : (x.stages now draw binary header .init fs).result = .error failure) :
    AbortsFrom x draw binary header fs failure.stage failure.fault := by
  cases known : header.isKnown with
  | false =>
    rw [stages_of_unknown x now draw binary header fs known] at h
    cases h
    exact .unknownFormat known
  | true =>
    rcases made : x.scratch draw fs with ⟨opened, events, fault | scratch⟩
    · have refused : (x.scratch draw fs).result = .error fault := by rw [made]
      obtain ⟨path, cause, rfl⟩ := RunScratch.scratch_of_create_error refused
      rw [stages_of_refused x now draw binary fs known made] at h
      cases h
      exact .noScratch refused
    · have created : (x.scratch draw fs).result = .ok scratch := by rw [made]
      have opens : (x.scratch draw fs).files = opened := by rw [made]
      rw [stages_of_created x now draw binary fs known made] at h
      rw [← opens] at h
      exact work_aborts created h

theorem AbortsFrom.not_done {stage : Stage} {fault : Fault}
    (h : AbortsFrom x draw binary header fs stage fault) :
    stage ≠ .blocksPopulated ∧ stage ≠ .done ∧ ∀ left, (left, .done) ∉ stage.steps := by
  cases h <;> simp [Stage.steps, Stage.course]

/-- What the transitions of a run say of its end, and the stage that it is aborted from of its
fault. -/
structure FollowsStages (x : Extractor) (draw : Draw) (binary : String) (header : Header)
    (fs : FileSystem) (run : Ending Fault Model) : Prop where
  complete : ∀ m, run.result = .ok m → transitions run.events = Stage.done.steps
  aborted : ∀ fault, run.result = .error fault → ∃ stage,
    AbortsFrom x draw binary header fs stage fault ∧ stage.steps <+: Stage.done.steps ∧
      transitions run.events = stage.steps ++ [(stage, .aborted)]
  done_iff : (∃ left, (left, .done) ∈ transitions run.events) ↔ ∃ m, run.result = .ok m
  aborted_iff :
    (∃ left, (left, .aborted) ∈ transitions run.events) ↔ ∃ fault, run.result = .error fault
  stage_unique : ∀ fault stage stage', AbortsFrom x draw binary header fs stage fault →
    AbortsFrom x draw binary header fs stage' fault → stage = stage'
  not_done : ∀ fault stage, AbortsFrom x draw binary header fs stage fault →
    stage ≠ .blocksPopulated ∧ stage ≠ .done

/-- Nothing is reported of stages before the first of them, and after them only that they have been
left. -/
theorem transitions_extract (quiet : x.tool.KeepsStage) :
    transitions (x.extract now draw binary header fs).events =
      match (x.stages now draw binary header .init fs).result with
      | .ok _ => Stage.done.steps
      | .error failure => failure.stage.steps ++ [(failure.stage, .aborted)] := by
  have steps : transitions (x.stages now draw binary header .init fs).events =
      (Stage.done.reached (x.stages now draw binary header .init fs).result).steps :=
    steps_stages quiet
  rw [extract_eq]
  cases ended : (x.stages now draw binary header .init fs).result with
  | ok m => simpa [ended, closing, Except.map, Event.transition?, Stage.reached] using steps
  | error failure =>
    simpa [ended, closing, Except.map, Event.transition?, Stage.reached] using steps

/-- A run goes through its stages in order. It is aborted, once and last, exactly if it fails, and
it is done exactly if it gives a model. The stage that it is aborted from tells which faults it can
end with, and the fault tells the stage. -/
theorem extract_follows_stages (x : Extractor) (now : String) (draw : Draw) (binary : String)
    (header : Header) (fs : FileSystem) (quiet : x.tool.KeepsStage) (own : x.tool.FailsItself) :
    FollowsStages x draw binary header fs (x.extract now draw binary header fs) := by
  have trace : transitions (x.extract now draw binary header fs).events = _ :=
    transitions_extract quiet
  have result : (x.extract now draw binary header fs).result =
      ((x.stages now draw binary header .init fs).result.map (·.1)).mapError (·.fault) := by
    rw [extract_eq]
  have unique : ∀ fault stage stage', AbortsFrom x draw binary header fs stage fault →
      AbortsFrom x draw binary header fs stage' fault → stage = stage' :=
    fun _ _ _ h h' => h.stage_unique own h'
  have notDone : ∀ fault stage, AbortsFrom x draw binary header fs stage fault →
      stage ≠ .blocksPopulated ∧ stage ≠ .done :=
    fun _ _ h => ⟨h.not_done.1, h.not_done.2.1⟩
  cases ended : (x.stages now draw binary header .init fs).result with
  | ok m =>
    rw [ended] at trace result
    have noFault : ¬ ∃ fault, (x.extract now draw binary header fs).result = .error fault :=
      fun ⟨fault, h⟩ => nomatch result.symm.trans h
    refine ⟨fun _ _ => trace, fun fault h => absurd ⟨fault, h⟩ noFault, ?_, ?_, unique, notDone⟩
    · have last : (.blocksPopulated, .done) ∈ Stage.done.steps := by decide
      exact ⟨fun _ => ⟨m.1, result⟩, fun _ => ⟨.blocksPopulated, trace ▸ last⟩⟩
    · refine iff_of_false (fun ⟨left, member⟩ => ?_) noFault
      rw [trace] at member
      simp [Stage.steps, Stage.course] at member
  | error failure =>
    rw [ended] at trace result
    have noModel : ¬ ∃ m, (x.extract now draw binary header fs).result = .ok m :=
      fun ⟨m, h⟩ => nomatch result.symm.trans h
    have aborts := stages_aborts ended
    refine ⟨fun m h => absurd ⟨m, h⟩ noModel, fun fault h => ?_, ?_, ?_, unique, notDone⟩
    · obtain rfl : failure.fault = fault := Except.error.inj (result.symm.trans h)
      exact ⟨failure.stage, aborts, failure.stage.steps_isPrefix, trace⟩
    · refine iff_of_false (fun ⟨left, member⟩ => ?_) noModel
      rw [trace] at member
      simp [aborts.not_done.2.2 left] at member
    · exact ⟨fun _ => ⟨failure.fault, result⟩, fun _ => ⟨failure.stage, by simp [trace]⟩⟩

/-- A disassembler that decodes no instruction of the one block that it finds. -/
def blindHost : Host where
  owner := "0:0"
  start _ fs := .ok fun _ =>
    { files := (fs.put ["s", "ddisasm", "binary", instructionFactsName] (.file [] false)).put
        ["s", "ddisasm", "binary", blockFactsName] (.file (Utf8.encode "16\t1\tret\n") false)
      output := []
      finished := some (some 0, 5) }

def blindExtractor : Extractor where
  tool := .disassembler blindHost (.native "ddisasm") none
  config := { Config.default "/tmp" with scratchDir := "/s", isolateRuns := false }

theorem blind_run_aborts_from_blocksParsed :
    let header : Header := ⟨.elf, .sharedObject, true, none, []⟩
    let fs : FileSystem := ⟨[], []⟩
    let draw : Draw := .ofNat 0
    let run := blindExtractor.extract "now" draw "/b" header fs
    FollowsStages blindExtractor draw "/b" header fs run ∧
      (run.result.map fun _ => ()) = .error (.gap 16 16) ∧
      transitions run.events =
        [(.init, .toolInvoked), (.toolInvoked, .factsLocated), (.factsLocated, .instructionsParsed),
          (.instructionsParsed, .blocksParsed), (.blocksParsed, .aborted)] :=
  ⟨extract_follows_stages _ _ _ _ _ _ (Tool.keepsStage_disassembler _ _ _)
    (Tool.failsItself_disassembler _ _ _), by decide +kernel, by decide +kernel⟩

end Extractor
end BasicBlocks
