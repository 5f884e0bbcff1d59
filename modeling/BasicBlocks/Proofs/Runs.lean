import BasicBlocks.Extraction
import BasicBlocks.Proofs.Reconciliation
import BasicBlocks.Proofs.ScratchSpace

/-!
# Runs

What a run does, said once: whether it gets scratch space, how its work there ends, and what is left
when the space has been released. Whatever holds of runs is read off these cases.
-/

namespace BasicBlocks

open Facts

namespace Layout

/-- The fact file that is missing, the instructions' before the blocks'. -/
def missing? (l : Layout) (fs : FileSystem) : Option String :=
  [l.instructionFacts, l.blockFacts].find? (!fs.isFile ·)

theorem missing?_eq_none_iff {l : Layout} {fs : FileSystem} :
    l.missing? fs = none ↔
      (∃ bytes, fs.read l.instructionFacts = .ok bytes) ∧
        ∃ bytes, fs.read l.blockFacts = .ok bytes := by
  simp [missing?, List.find?_eq_none, FileSystem.isFile_iff]

end Layout

namespace Extractor

/-- Makes the scratch space of a run. -/
def scratch (x : Extractor) (draw : Draw) : Task Fault RunScratch :=
  RunScratch.create x.config.scratchDir x.tool.name x.config.isolateRuns x.config.cleanup draw

/-- Reconciles the fact files of a layout as they are found. -/
def reconciliation (x : Extractor) (header : Header) (layout : Layout) (fs : FileSystem) :
    Traced Failure Reconciled :=
  reconcile (factFile fs layout.instructionFacts) (factFile fs layout.blockFacts)
    (AddressSpace.ofHeader header) x.config.scope

theorem factFile_of_read {fs : FileSystem} {path : String} {bytes : Utf8.Bytes}
    (h : fs.read path = .ok bytes) : factFile fs path = ⟨path, some bytes⟩ := by
  rw [factFile, h]
  rfl

/-- The model of a run. -/
def modelOf (x : Extractor) (now : String) (run : ToolRun) (version : Option String)
    (r : Reconciled) : Model :=
  { origin := { toolName := x.tool.displayName
                toolVersion := version.getD "unknown"
                sourceVersion := sourceVersion
                elapsedSeconds := Float.ofScientific run.milliseconds true 3
                extractedAt := now }
    instructions := r.instructions
    blocks := r.blocks
    data := Table.ofList [] }

/-- How the work of a run ends that starts with the tool's run `ran`. -/
inductive WorkEnds (x : Extractor) (now : String) (header : Header) (layout : Layout)
    (ran : Ending Fault ToolRun) : Ending Failure (Model × Stage) → Prop
  | toolFailed {fault : Fault} (failed : ran.result = .error fault) :
      WorkEnds x now header layout ran
        ⟨ran.files, .stageChanged .init .toolInvoked :: ran.events, .error ⟨.toolInvoked, fault⟩⟩
  | factsMissing {run : ToolRun} {path : String} (finished : ran.result = .ok run)
      (missing : layout.missing? ran.files = some path) :
      WorkEnds x now header layout ran
        ⟨ran.files,
          .stageChanged .init .toolInvoked :: ran.events ++ [.toolOutput run.output],
          .error ⟨.toolInvoked, .missingFacts path⟩⟩
  | notReconciled {run : ToolRun} {failure : Failure} (finished : ran.result = .ok run)
      (located : layout.missing? ran.files = none)
      (failed : (x.reconciliation header layout ran.files).result = .error failure) :
      WorkEnds x now header layout ran
        ⟨ran.files,
          .stageChanged .init .toolInvoked :: ran.events ++
            [.toolOutput run.output, .stageChanged .toolInvoked .factsLocated,
              .spaceSelected (AddressSpace.ofHeader header) header.format header.kind] ++
            (x.reconciliation header layout ran.files).events,
          .error failure⟩
  | done {run : ToolRun} {r : Reconciled} {version : Option String}
      (finished : ran.result = .ok run) (located : layout.missing? ran.files = none)
      (reconciled : (x.reconciliation header layout ran.files).result = .ok r)
      (probed : (x.tool.version ran.files).result = .ok version) :
      WorkEnds x now header layout ran
        ⟨(x.tool.version ran.files).files,
          .stageChanged .init .toolInvoked :: ran.events ++
            [.toolOutput run.output, .stageChanged .toolInvoked .factsLocated,
              .spaceSelected (AddressSpace.ofHeader header) header.format header.kind] ++
            (x.reconciliation header layout ran.files).events ++
            (x.tool.version ran.files).events ++ [.stageChanged .blocksPopulated .done],
          .ok (x.modelOf now run version r, .done)⟩

variable (x : Extractor) (now : String) (draw : Draw) (binary : String) (header : Header)
  (layout : Layout) (fs : FileSystem)

theorem atStage_eq {α : Type} {t : Task Fault α} {fs fs' : FileSystem} {events : List Event}
    {result : Except Fault α} (stage : Stage) (h : t fs = ⟨fs', events, result⟩) :
    Task.atStage t stage fs =
      ⟨fs', events, (result.mapError (⟨stage, ·⟩)).map (·, stage)⟩ := by
  simp only [Task.atStage, h]

theorem locateFacts_eq :
    locateFacts layout fs =
      ⟨fs, [], match layout.missing? fs with
        | some path => .error (.missingFacts path)
        | none => .ok ()⟩ := by
  unfold locateFacts
  rw [Task.ask_bind, ← Layout.missing?]
  cases layout.missing? fs with
  | some path => rfl
  | none => rfl

/-- From located facts on, the stages are those of the reconciliation. -/
theorem reconcileFiles_eq :
    x.reconcileFiles header layout .factsLocated fs =
      ⟨fs, .spaceSelected (AddressSpace.ofHeader header) header.format header.kind ::
        (x.reconciliation header layout fs).events,
        (x.reconciliation header layout fs).result.map (·, .blocksPopulated)⟩ := by
  have staged := reconcileStages_factsLocated (factFile fs layout.instructionFacts)
    (factFile fs layout.blockFacts) (AddressSpace.ofHeader header) x.config.scope
  simp only [reconcileFiles, bind, liftM, monadLift, MonadLift.monadLift, pure, StateT.bind,
    StateT.lift, Task.report, Task.ofTraced, staged]
  rfl

theorem work_ends :
    WorkEnds x now header layout (x.tool.run binary layout fs)
      (x.work now binary header layout .init fs) := by
  simp only [work, bind, liftM, monadLift, MonadLift.monadLift, StateT.bind, StateT.lift,
    Task.atStage, Task.advance, Task.report, Task.pure_eq, locateFacts_eq]
  cases finished : (x.tool.run binary layout fs).result with
  | error fault => simpa [Except.mapError, Except.map] using WorkEnds.toolFailed finished
  | ok run =>
    dsimp only [Except.mapError, Except.map]
    cases located : layout.missing? (x.tool.run binary layout fs).files with
    | some path => simpa using WorkEnds.factsMissing finished located
    | none =>
      dsimp only
      rw [reconcileFiles_eq]
      cases reconciled : (x.reconciliation header layout
          (x.tool.run binary layout fs).files).result with
      | error failure => simpa [Except.map] using WorkEnds.notReconciled finished located reconciled
      | ok r =>
        dsimp only [Except.map]
        cases probed : (x.tool.version (x.tool.run binary layout fs).files).result with
        | error impossible => exact impossible.elim
        | ok version =>
          have ended : WorkEnds x now header layout (x.tool.run binary layout fs) _ :=
            .done finished located reconciled probed
          simpa [Staged.pure_eq, Task.pure_eq, modelOf, infallibly, Task.mapFault, probed,
            Except.mapError]
            using ended

theorem stages_of_unknown (unknown : header.isKnown = false) :
    x.stages now draw binary header .init fs =
      ⟨fs, [.formatSkipped x.tool.name], .error ⟨.init, .unknownFormat x.tool.name⟩⟩ := by
  rw [stages, unknown]
  rfl

variable {header}

theorem stages_of_refused (known : header.isKnown = true) {fault : Fault}
    {made : FileSystem} {events : List Event}
    (refused : x.scratch draw fs = ⟨made, events, .error fault⟩) :
    x.stages now draw binary header .init fs = ⟨made, events, .error ⟨.init, fault⟩⟩ := by
  rw [stages, if_pos known]
  exact Task.bind_of_error (atStage_eq .init refused)

theorem stages_of_created (known : header.isKnown = true) {scratch : RunScratch}
    {created : FileSystem} {events : List Event}
    (h : x.scratch draw fs = ⟨created, events, .ok scratch⟩) :
    x.stages now draw binary header .init fs =
      let worked := x.work now binary header scratch.layout .init created
      let released := scratch.release worked.files
      ⟨released.files, events ++ (worked.events ++ released.events), worked.result⟩ := by
  rw [stages, if_pos known]
  exact Task.bind_of_ok (atStage_eq .init h)

variable (header)

/-- What is reported of a run after its stages. -/
def closing : Except Failure Model → List Event
  | .ok m => [.extractionFinished m.instructions.size m.blocks.size m.origin.elapsedSeconds]
  | .error failure => [.extractionAborted failure, .stageChanged failure.stage .aborted]

theorem extract_eq :
    x.extract now draw binary header fs =
      let staged := x.stages now draw binary header .init fs
      let result := staged.result.map (·.1)
      ⟨staged.files,
        .extractionStarted header.format header.kind :: staged.events ++ closing result,
        result.mapError (·.fault)⟩ := by
  have run : (x.stages now draw binary header).run' .init fs = _ := Task.map_eq _ _ _
  simp only [extract, bind, Task.report, Task.outcome, run]
  cases (x.stages now draw binary header .init fs).result with
  | error failure => rfl
  | ok m => rfl

end Extractor
end BasicBlocks
