import BasicBlocks.Path
import BasicBlocks.Population

/-!
# Configuration

How a run is set up. Every setting has a default, and is taken from the highest layer that gives
it: the command line, then the environment, then the file, then the default.
-/

namespace BasicBlocks

def Scope.names : List (String × Scope) := [("cfg", .cfg), ("exhaustive", .exhaustive)]

def Scope.name : Scope → String
  | .cfg => "cfg"
  | .exhaustive => "exhaustive"

/-- How the disassembler is started. -/
inductive Launcher
  /-- In a container that sees the binary and the scratch directory. -/
  | docker (image program : String)
  | native (program : String)
  deriving DecidableEq, Repr

namespace Launcher

def defaultImage : String := "grammatech/ddisasm"

def defaultDocker : String := "docker"

def default : Launcher := .docker defaultImage defaultDocker

/-- A launcher's settings as a document gives them: under their names, or in order. A value that is
no text is none. -/
inductive Settings
  | named (members : List (String × Option String))
  | positional (values : List (Option String))
  deriving DecidableEq, Repr

/-- The values of these names in order, each where it is given; nothing where a name is given twice
or there are too many values. -/
def Settings.fields? (names : List String) : Settings → Option (List (Option (Option String)))
  | .named members =>
    names.mapM fun name =>
      match members.filter (·.1 = name) with
      | [] => some none
      | [m] => some (some m.2)
      | _ => none
  | .positional values =>
    if values.length ≤ names.length then
      some (values.map some ++ List.replicate (names.length - values.length) none)
    else none

def textOr (fallback : String) : Option (Option String) → Option String
  | none => some fallback
  | some text => text

/-- The launcher of a kind. Only a container's settings have defaults. -/
def ofSettings? (kind : String) (settings : Settings) : Option Launcher :=
  if kind = "docker" then
    match settings.fields? ["image", "docker_bin"] with
    | some [image, program] => do
      return .docker (← textOr defaultImage image) (← textOr defaultDocker program)
    | _ => none
  else if kind = "native" then
    match settings.fields? ["program"] with
    | some [some program] => program.map .native
    | _ => none
  else none

end Launcher

structure Config where
  launcher : Launcher
  scratchDir : String
  /-- Every run has a directory of its own. -/
  isolateRuns : Bool
  timeoutSeconds : Option Word
  scope : Scope
  /-- What the tool wrote is removed after the run. -/
  cleanup : Bool
  deriving DecidableEq, Repr

namespace Config

/-- In the directory for what is temporary. -/
def defaultScratchDir (tempDir : String) : String := Path.join tempDir "ddfacts"

def default (tempDir : String) : Config :=
  { launcher := .default, scratchDir := defaultScratchDir tempDir, isolateRuns := true,
    timeoutSeconds := none, scope := .cfg, cleanup := true }

/-- The settings in the order in which they are listed. -/
def fieldNames : List String :=
  ["launcher", "scratch_dir", "isolate_runs", "timeout_secs", "instruction_scope", "cleanup"]

/-- A program named by the environment replaces the launcher as a whole. -/
def withEnvironment (c : Config) (program : Option String) : Config :=
  match program with
  | none => c
  | some p => { c with launcher := .native p }

/-- What the command line sets. -/
structure Overrides where
  scratchDir : Option String
  timeoutSeconds : Option Word
  exhaustive : Bool
  deriving DecidableEq, Repr

/-- The scope can only be widened. -/
def withOverrides (c : Config) (o : Overrides) : Config :=
  { c with
    scratchDir := o.scratchDir.getD c.scratchDir
    timeoutSeconds := o.timeoutSeconds.or c.timeoutSeconds
    scope := if o.exhaustive then .exhaustive else c.scope }

end Config
end BasicBlocks
