import BasicBlocks.Event

/-!
# Reconciliation

From the contents of the two fact files to the listing and the populated blocks. A file that is
absent, or is no regular file, has no contents. The scope is consulted last and decides nothing but
the listing.
-/

namespace BasicBlocks

open Utf8 (Bytes)

structure Reconciled where
  instructions : Table String
  blocks : Table Block
  deriving DecidableEq

/-- A fact file as it is found: its path for reports, and its contents. -/
structure FactFile where
  path : String
  contents : Option Bytes

namespace FactFile

def read {α : Type} (reader : Facts.RowReader α) (space : AddressSpace) (file : FactFile) :
    List Event × Except Fault (Table α) :=
  match file.contents with
  | none => ([], .error (.missingFacts file.path))
  | some bytes =>
    let reading := Facts.read reader space bytes
    (reading.skipped.map (.shortLine file.path ·), reading.result.mapError (·.at file.path))

end FactFile

/-- What goes through stages is given the stage that has been reached, and gives the one that it
reaches. -/
abbrev Staged (m : Type → Type) := StateT Stage m

/-- A result with the events on the way to it. -/
structure Traced (ε α : Type) where
  events : List Event
  result : Except ε α

namespace Traced

variable {ε α β : Type}

instance : Monad (Traced ε) where
  pure a := ⟨[], .ok a⟩
  bind t f :=
    match t.result with
    | .error e => ⟨t.events, .error e⟩
    | .ok a =>
      let later := f a
      ⟨t.events ++ later.events, later.result⟩

def report (e : Event) : Traced ε Unit := ⟨[e], .ok ()⟩

/-- A step within a stage, whose fault is told with it. -/
def atStage (step : List Event × Except Fault α) : Staged (Traced Failure) α := fun stage =>
  ⟨step.1, (step.2.mapError (⟨stage, ·⟩)).map (·, stage)⟩

/-- Goes on to the next stage. -/
def advance (next : Stage) : Staged (Traced Failure) Unit := fun stage =>
  ⟨[.stageChanged stage next], .ok ((), next)⟩

end Traced

def Population.Gap.fault (g : Population.Gap) : Fault := .gap g.block g.address

def populateTraced (blocks : BlockTable) (instructions : InstructionTable) :
    List Event × Except Fault (Table Block) :=
  let outcome := populate blocks instructions
  (outcome.1.map .overrun, outcome.2.mapError (·.fault))

/-- Parses both files and populates the blocks, from the stage that has been reached. -/
def reconcileStages (instructionFile blockFile : FactFile) (space : AddressSpace)
    (scope : Scope) : Staged (Traced Failure) Reconciled := do
  let instructions ← Traced.atStage (instructionFile.read Facts.instructionRow space)
  Traced.advance .instructionsParsed
  let blocks ← Traced.atStage (blockFile.read Facts.blockRow space)
  Traced.advance .blocksParsed
  let populated ← Traced.atStage (populateTraced blocks instructions)
  Traced.advance .blocksPopulated
  (Traced.report (.tablesReconciled instructions.size populated.size) : Traced Failure Unit)
  return ⟨listing scope populated instructions, populated⟩

/-- Reconciles files that have been located. -/
def reconcile (instructionFile blockFile : FactFile) (space : AddressSpace) (scope : Scope) :
    Traced Failure Reconciled :=
  (reconcileStages instructionFile blockFile space scope).run' .factsLocated

end BasicBlocks
