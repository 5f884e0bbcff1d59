import BasicBlocks.Config
import BasicBlocks.Json.Decoding

/-!
# Configurations in JSON

A launcher names its kind beside its own settings, or first in an array of them. It is read as a
whole before its kind is known, so nothing in it is ignored: its texts and numbers have to mean
something, and its depth counts.
-/

namespace BasicBlocks

open Json

namespace Launcher

def toJson : Launcher → Json
  | .docker image program =>
    .object [("kind", ofText "docker"), ("image", ofText image), ("docker_bin", ofText program)]
  | .native program => .object [("kind", ofText "native"), ("program", ofText program)]

def ofJson? (level : Nat) (j : Json) : Option Launcher := do
  let _ ← canonical? level j
  match j with
  | .object members =>
    let named ← namedMembers? members
    match ← member? named "kind" with
    | none => none
    | some kind =>
      ofSettings? (← asText? kind)
        (.named ((named.filter (·.1 ≠ "kind")).map fun m => (m.1, asText? m.2)))
  | .array (kind :: settings) =>
    ofSettings? (← asText? kind) (.positional (settings.map asText?))
  | _ => none

end Launcher

namespace Config

/-- A time limit is left out where there is none. -/
def toJson (c : Config) : Json :=
  .object ([("launcher", c.launcher.toJson), ("scratch_dir", ofText c.scratchDir),
      ("isolate_runs", .bool c.isolateRuns)]
    ++ (c.timeoutSeconds.map fun s => ("timeout_secs", ofWord s)).toList
    ++ [("instruction_scope", ofText c.scope.name), ("cleanup", .bool c.cleanup)])

def orDefault {α : Type} (fallback : α) (read : Json → Option α) : Option Json → Option α
  | none => some fallback
  | some j => read j

def ofJson? (tempDir : String) (j : Json) : Option Config := do
  match ← asFields? 1 fieldNames j with
  | [launcher, scratchDir, isolateRuns, timeout, scope, cleanup] =>
    return { launcher := ← orDefault .default (Launcher.ofJson? 2) launcher
             scratchDir := ← orDefault (defaultScratchDir tempDir) asText? scratchDir
             isolateRuns := ← orDefault true asBool? isolateRuns
             timeoutSeconds := ← orDefault none (asOptional? asWord?) timeout
             scope := ← orDefault .cfg (asCase? 2 Scope.names) scope
             cleanup := ← orDefault true asBool? cleanup }
  | _ => none

end Config
end BasicBlocks
