import BasicBlocks.Scratch.Run

/-!
# Inputs from memory

Bytes that are to be disassembled are written to a file that lasts as long as the run.
-/

namespace BasicBlocks.Input

/-- The end of the name: the last component of the given one, if it is a name. -/
def baseName (name : String) : String := (Path.fileName? name).getD "binary"

/-- The name of an input's file, from what is drawn for it and its end. -/
def fileName (draw : Draw) (base : String) : String := "input-" ++ draw.text ++ "-" ++ base

/-- Writes bytes to a new file in a directory and gives its path. -/
def materialize (directory : String) (draw : Draw) (name : String) (data : Utf8.Bytes) :
    Task Fault String := do
  let work : Task IoFault String := do
    Task.changePartly fun fs => fs.makeDirectories directory
    let base ← Task.tell fun fs => fs.absolute directory
    let path := Path.join base (fileName draw (baseName name))
    Task.change fun fs => fs.createFile path data
    return path
  work.mapFault (.scratch directory ·)

def release (path : String) : Task Empty Unit := do
  match ← (Task.change fun fs => fs.removeFile path).outcome with
  | .ok () => return
  | .error cause => Task.report (.inputKept path cause)

end BasicBlocks.Input
