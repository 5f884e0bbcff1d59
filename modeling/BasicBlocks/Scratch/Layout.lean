import BasicBlocks.FileSystem.Access
import BasicBlocks.Task

/-!
# Scratch layout

Where a tool leaves its files under a scratch root: in one directory, the tables and the graph side
by side.
-/

namespace BasicBlocks

def instructionFactsName : String := "instruction.facts"

def blockFactsName : String := "block_information.csv"

def graphName : String := "cfg.json"

structure Layout where
  root : String
  toolDir : String
  binaryDir : String
  instructionFacts : String
  blockFacts : String
  graph : String
  deriving DecidableEq, Repr

namespace Layout

def ofRoot (root tool : String) : Layout :=
  let toolDir := Path.join root tool
  let binaryDir := Path.join toolDir "binary"
  { root, toolDir, binaryDir
    instructionFacts := Path.join binaryDir instructionFactsName
    blockFacts := Path.join binaryDir blockFactsName
    graph := Path.join binaryDir graphName }

/-- A path as it is seen from the root. -/
def relative? (l : Layout) (path : String) : Option String := Path.strip? path l.root

/-- Makes the tool's directory where it is missing. -/
def ensure (l : Layout) : Task Fault Unit :=
  (Task.changePartly fun fs => fs.makeDirectories l.binaryDir).mapFault (.scratch l.binaryDir ·)

def removeArtifact (fs : FileSystem) (path : String) : Except IoFault FileSystem :=
  if fs.isDirectory path then fs.removeDirectory path else fs.removeFile path

/-- Removes the artifacts at these paths and counts those that are kept. -/
def removeArtifacts : List String → Task Empty Nat
  | [] => pure 0
  | path :: rest => do
    match ← (Task.change fun fs => removeArtifact fs path).outcome with
    | .ok () => removeArtifacts rest
    | .error cause =>
      Task.report (.artifactKept path cause)
      return (← removeArtifacts rest) + 1

/-- Empties the tool's directory, as far as that can be done, and counts what is kept. A directory
that is absent is empty. -/
def clear (l : Layout) : Task Empty Nat := do
  match ← Task.ask fun fs => fs.list l.binaryDir with
  | .ok names => removeArtifacts (names.map (Path.join l.binaryDir ·))
  | .error .notFound => return 0
  | .error cause =>
    Task.report (.artifactsUnlistable l.binaryDir cause)
    return 1

end Layout
end BasicBlocks
