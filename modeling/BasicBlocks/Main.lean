import BasicBlocks.CommandLine.Program
import BasicBlocks.CommandLine.Timestamp
import BasicBlocks.Shell.ScriptHost

/-!
# The command line

Reads the files that a command can see, runs it, prints what it says and writes back what it has
changed. A command sees the current directory and what its arguments name. A file that begins with
the mark of a script can be started.
-/

namespace BasicBlocks

def isScript (contents : Utf8.Bytes) : Bool := contents.take 2 = [35, 33]

/-- The directories on the way to a location. -/
def withParents (fs : FileSystem) (place : Location) : FileSystem :=
  (List.range place.length).foldl (fun fs n =>
    let above := place.take n
    if (fs.get? above).isSome then fs else fs.put above .directory) fs

def placeOf (fs : FileSystem) (path : String) : Location :=
  (Path.components ((fs.absolute path).toOption.getD path)).foldl (fun place c =>
    match c with
    | .name text => place ++ [text]
    | .up => place.dropLast
    | _ => place) []

/-- Adds what lies at a location, as deep as is allowed. -/
def load (depth : Nat) (fs : FileSystem) (place : Location) : IO FileSystem := do
  match depth with
  | 0 => return fs
  | depth + 1 =>
    try
      let path ← IO.FS.realPath place.path
      if path.toString ≠ place.path then
        let beyond := placeOf fs path.toString
        return ← load depth (withParents (fs.put place (.link path.toString)) beyond) beyond
      if ← path.isDir then
        let mut fs := if place = [] then fs else fs.put place .directory
        for e in ← path.readDir do
          fs ← load depth fs (place ++ [e.fileName])
        return fs
      else
        let contents := (← IO.FS.readBinFile path).toList
        return fs.put place (.file contents (isScript contents))
    catch _ => return fs

/-- The deepest directory that is read. -/
def deepest : Nat := 40

/-- Adds what a path names; of a directory above the current one only that it is there. -/
def loadPath (fs : FileSystem) (path : String) : IO FileSystem := do
  let place := placeOf fs path
  if place.isPrefixOf fs.current || fs.current.isPrefixOf place then return fs
  else load deepest (withParents fs place) place

def snapshot (paths : List String) : IO FileSystem := do
  let here := (← IO.currentDir).toString
  let bare : FileSystem := ⟨[], []⟩
  let place := placeOf bare here
  let fs ← load deepest (withParents { bare with current := place } place) place
  paths.foldlM loadPath fs

/-- Writes what has changed, directories before what they hold. -/
def writeBack (before after : FileSystem) : IO Unit := do
  for (place, entry) in before.entries do
    if (after.get? place).isNone then
      try
        match entry with
        | .directory => IO.FS.removeDirAll place.path
        | _ => IO.FS.removeFile place.path
      catch _ => pure ()
  let changed := after.entries.filter fun e => before.get? e.1 ≠ some e.2
  for (place, entry) in changed.mergeSort fun a b => a.1.length ≤ b.1.length do
    match entry with
    | .directory => IO.FS.createDirAll place.path
    | .file contents _ => IO.FS.writeBinFile place.path ⟨contents.toArray⟩
    | .link _ => pure ()

/-- The present moment, which a new file carries. -/
def present : IO String := do
  let (_, path) ← IO.FS.createTempFile
  let time := (← path.metadata).modified
  IO.FS.removeFile path
  return Timestamp.text time.sec time.nsec.toNat

/-- The paths that arguments may name, with or without the name of an option before them. -/
def namedPaths (arguments : List String) : List String :=
  arguments.flatMap fun a =>
    match Arguments.option? a with
    | some (_, some value) => [value]
    | some (_, none) => []
    | none => [a]

end BasicBlocks

open BasicBlocks in
def main (arguments : List String) : IO UInt32 := do
  let disassembler ← IO.getEnv "DDISASM_BIN"
  let logFilter ← IO.getEnv "RUST_LOG"
  let temporary ← IO.getEnv "TMPDIR"
  let now ← present
  let draw := Draw.ofNat (← IO.rand 0 Draw.last)
  let env : Environment :=
    { disassembler, logFilter, temporary, now, draw, host := .ofScripts "0:0" }
  let before ← snapshot
    (namedPaths arguments ++ disassembler.toList ++ [Config.defaultScratchDir env.tempDir])
  let outcome := Program.run env arguments before
  writeBack before outcome.files
  for m in outcome.messages do
    match m with
    | .entry true e => IO.eprintln (e.toJson now).compact
    | .entry false e => IO.eprintln (e.line now)
    | .text s => IO.eprint s
  IO.print outcome.output
  return UInt32.ofNat outcome.code
