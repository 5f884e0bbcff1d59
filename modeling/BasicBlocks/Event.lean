import BasicBlocks.Population

/-!
# Events

What a run reports of itself on the way, as data. A run goes through its stages in one order; from
any of them it may be aborted.
-/

namespace BasicBlocks

inductive Stage
  | init
  | toolInvoked
  | factsLocated
  | instructionsParsed
  | blocksParsed
  | blocksPopulated
  | done
  | aborted
  deriving DecidableEq, Repr

def Stage.label : Stage → String
  | .init => "Init"
  | .toolInvoked => "ToolInvoked"
  | .factsLocated => "FactsLocated"
  | .instructionsParsed => "InstructionsParsed"
  | .blocksParsed => "BlocksParsed"
  | .blocksPopulated => "BlocksPopulated"
  | .done => "Done"
  | .aborted => "Aborted"

/-- A failure with the stage that the run had reached. -/
structure Failure where
  stage : Stage
  fault : Fault
  deriving DecidableEq, Repr

inductive Event
  | starting (version : String)
  | shortLine (source : String) (line : Nat)
  | overrun (overrun : Population.Overrun)
  | stageChanged (left entered : Stage)
  | tablesReconciled (exhaustive blocks : Nat)
  | extractionStarted (format : Format) (kind : ObjectKind)
  | formatSkipped (tool : String)
  | toolOutput (output : String)
  | spaceSelected (space : AddressSpace) (format : Format) (kind : ObjectKind)
  | extractionFinished (instructions blocks : Nat) (seconds : Float)
  | extractionAborted (failure : Failure)
  | toolSpawning (tool command : String)
  | toolExited (tool : String) (code : Option Int) (output : String)
  | toolKilled (tool : String) (seconds : Word)
  | versionProbeFailed (tool : String) (fault : Fault)
  | artifactsUnlistable (directory : String) (cause : IoFault)
  | artifactKept (path : String) (cause : IoFault)
  | runDirectoryKept (directory : String) (cause : IoFault)
  | inputKept (path : String) (cause : IoFault)

end BasicBlocks
