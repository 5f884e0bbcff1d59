import BasicBlocks.Model
import BasicBlocks.Scratch.Input
import BasicBlocks.Tool.Disassembler

/-!
# Extraction

A run: the tool disassembles the binary into scratch space, and its fact files are reconciled into a
model. A run fails at the first stage that fails, and its scratch space is released either way.
-/

namespace BasicBlocks

structure Extractor where
  tool : Tool
  config : Config

namespace Extractor

def infallibly {ε α : Type} (t : Task Empty α) : Task ε α := t.mapFault Empty.elim

def factFile (fs : FileSystem) (path : String) : FactFile := ⟨path, (fs.read path).toOption⟩

/-- Fails for the first fact file that is missing. -/
def locateFacts (layout : Layout) : Task Fault Unit := do
  let missing ← Task.ask fun fs =>
    [layout.instructionFacts, layout.blockFacts].find? (!fs.isFile ·)
  match missing with
  | some path => Task.fail (.missingFacts path)
  | none => return

def reconcileFiles (x : Extractor) (header : Header) (layout : Layout) :
    Staged (Task Failure) Reconciled := do
  let space := AddressSpace.ofHeader header
  (Task.report (.spaceSelected space header.format header.kind) : Task Failure Unit)
  fun stage fs => Task.ofTraced (reconcileStages (factFile fs layout.instructionFacts)
    (factFile fs layout.blockFacts) space x.config.scope stage) fs

/-- The run in its scratch space. -/
def work (x : Extractor) (now binary : String) (header : Header) (layout : Layout) :
    Staged (Task Failure) Model := do
  Task.advance .toolInvoked
  let run ← Task.atStage (x.tool.run binary layout)
  (Task.report (.toolOutput run.output) : Task Failure Unit)
  Task.atStage (locateFacts layout)
  Task.advance .factsLocated
  let reconciled ← x.reconcileFiles header layout
  let version ← (infallibly x.tool.version : Task Failure (Option String))
  Task.advance .done
  return { origin := { toolName := x.tool.displayName
                       toolVersion := version.getD "unknown"
                       sourceVersion := sourceVersion
                       elapsedSeconds := Float.ofScientific run.milliseconds true 3
                       extractedAt := now }
           instructions := reconciled.instructions
           blocks := reconciled.blocks
           data := Table.ofList [] }

/-- A binary of unknown format is left alone. -/
def stages (x : Extractor) (now : String) (draw : Draw) (binary : String) (header : Header) :
    Staged (Task Failure) Model := do
  if header.isKnown then
    let scratch ← Task.atStage (RunScratch.create x.config.scratchDir x.tool.name
      x.config.isolateRuns x.config.cleanup draw)
    fun stage => (x.work now binary header scratch.layout stage).ensuring scratch.release
  else
    (Task.report (.formatSkipped x.tool.name) : Task Failure Unit)
    Task.atStage (Task.fail (.unknownFormat x.tool.name))

/-- The run, with what is drawn for the name of its root. -/
def extract (x : Extractor) (now : String) (draw : Draw) (binary : String) (header : Header) :
    Task Fault Model := do
  Task.report (.extractionStarted header.format header.kind)
  match ← ((x.stages now draw binary header).run' .init).outcome with
  | .ok m =>
    Task.report
      (.extractionFinished m.instructions.size m.blocks.size m.origin.elapsedSeconds)
    return m
  | .error failure =>
    Task.report (.extractionAborted failure)
    Task.report (.stageChanged failure.stage .aborted)
    Task.fail failure.fault

/-- The run on bytes, which are written to a file for its time. Something is drawn for the name of
that file as well. -/
def extractBytes (x : Extractor) (now : String) (inputDraw draw : Draw) (name : String)
    (data : Utf8.Bytes) (header : Header) : Task Fault Model := do
  let input ← Input.materialize (Path.join x.config.scratchDir "inputs") inputDraw name data
  (x.extract now draw input header).ensuring (Input.release input)

end Extractor
end BasicBlocks
