import BasicBlocks.Scratch.Draw
import BasicBlocks.Scratch.Layout

/-!
# Scratch space of a run

A run works under its scratch directory, in a directory of its own if runs are isolated, and else in
one that it shares with earlier runs and empties first. What it leaves behind is removed when it is
released, unless it is to be kept.
-/

namespace BasicBlocks

/-- Scratch space that is in use. -/
structure RunScratch where
  layout : Layout
  /-- The root, if no other run shares it. -/
  ownedRoot : Option String
  cleanup : Bool
  deriving DecidableEq, Repr

namespace RunScratch

def runMark : String := "run-"

/-- The name of a run's own root. -/
def rootName (draw : Draw) : String := runMark ++ draw.text

/-- Makes a directory that was not there. -/
def makeRoot (base : String) (draw : Draw) : Task IoFault String := do
  let root := Path.join base (rootName draw)
  Task.change fun fs => fs.makeDirectory root
  return root

def create (base tool : String) (isolate cleanup : Bool) (draw : Draw) : Task Fault RunScratch := do
  let base ← (Task.tell fun fs => fs.absolute base).mapFault (.scratch base ·)
  (Task.changePartly fun fs => fs.makeDirectories base).mapFault (.scratch base ·)
  if isolate then
    let root ← (makeRoot base draw).mapFault (.scratch base ·)
    let layout := Layout.ofRoot root tool
    layout.ensure
    return { layout, ownedRoot := some root, cleanup }
  else
    let layout := Layout.ofRoot base tool
    layout.ensure
    let _ ← layout.clear.mapFault Empty.elim
    return { layout, ownedRoot := none, cleanup }

def release (r : RunScratch) : Task Empty Unit := do
  if r.cleanup then
    let _ ← r.layout.clear
    match r.ownedRoot with
    | none => return
    | some root =>
      match ← (Task.change fun fs => fs.removeDirectory root).outcome with
      | .ok () => return
      | .error cause => Task.report (.runDirectoryKept root cause)

end RunScratch
end BasicBlocks
