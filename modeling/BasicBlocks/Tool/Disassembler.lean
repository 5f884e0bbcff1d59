import BasicBlocks.Config
import BasicBlocks.Scratch.Layout
import BasicBlocks.Tool.Capture

/-!
# The disassembler

The tool that writes the fact files, with the commands that start it. In a container it sees the
binary and the scratch root under names of their own, and works as the owner of the root.
-/

namespace BasicBlocks

structure Tool where
  name : String
  displayName : String
  /-- Nothing where it cannot be found out. -/
  version : Task Empty (Option String)
  /-- Disassembles the binary at a path. -/
  run : String → Layout → Task Fault ToolRun

namespace Disassembler

def toolName : String := "ddisasm"

def toolDisplayName : String := "Ddisasm"

def containerBinary : String := "/binary"

def containerScratch : String := "/scratch"

/-- A path under the scratch root as the container sees it; only names count. -/
def containerPath (layout : Layout) (path : String) : String :=
  let parts := ((layout.relative? path).map Path.components).getD []
  containerScratch ++ String.join (parts.map fun part =>
    match part with
    | .name text => "/" ++ text
    | _ => "")

def nativeArguments (layout : Layout) (binary : String) : List String :=
  ["--json", layout.graph, binary, "--debug-dir", layout.binaryDir]

def containerArguments (layout : Layout) (image binary : String) (owner : Option String) :
    List String :=
  ["run", "--rm"] ++ (owner.map ("--user=" ++ ·)).toList
    ++ ["-v", binary ++ ":" ++ containerBinary, "-v", layout.root ++ ":" ++ containerScratch, image,
      toolName, "--json", containerPath layout layout.graph, containerBinary, "--debug-dir",
      containerPath layout layout.binaryDir]

/-- A container's owner is set only if the root exists, and its binary is named by its canonical
path if it has one. -/
def command (launcher : Launcher) (owner : String) (fs : FileSystem) (binary : String)
    (layout : Layout) : Command :=
  match launcher with
  | .native program => ⟨program, nativeArguments layout binary⟩
  | .docker image program =>
    let owner := if (fs.find layout.root).toOption.isSome then some owner else none
    let binary := (fs.canonical binary).toOption.getD binary
    ⟨program, containerArguments layout image binary owner⟩

def versionCommand : Launcher → Command
  | .native program => ⟨program, ["--version"]⟩
  | .docker image program => ⟨program, ["run", "--rm", image, toolName, "--version"]⟩

end Disassembler

open Disassembler in
def Tool.disassembler (host : Host) (launcher : Launcher) (limit : Option Word) : Tool :=
  { name := toolName
    displayName := toolDisplayName
    version := Capture.probe host toolName limit (versionCommand launcher)
    run := fun binary layout => do
      let c ← Task.ask fun fs => command launcher host.owner fs binary layout
      Capture.run host toolName limit c }

end BasicBlocks
