import BasicBlocks.Json.ConfigForm
import BasicBlocks.Path
import BasicBlocks.Text.Utf8
import BasicBlocks.Yaml.ConfigForm

/-!
# Configuration documents

A configuration is written in YAML or in JSON; its path tells which. An empty YAML document sets
nothing.
-/

namespace BasicBlocks.Config

inductive Notation
  | json
  | yaml
  deriving DecidableEq, Repr

def Notation.ofPath (path : String) : Notation :=
  match Path.extension? path with
  | some "yaml" => .yaml
  | some "yml" => .yaml
  | _ => .json

def ofDocument? (tempDir : String) (form : Notation) (text : String) : Option Config :=
  match form with
  | .json => (Json.read? text).bind (ofJson? tempDir)
  | .yaml =>
    match Yaml.read? text with
    | none => none
    | some none => some (.default tempDir)
    | some (some node) => ofNode? tempDir node

/-- The configuration in the file at a path, from what reading it gave. -/
def ofFile (tempDir path : String) (contents : Except IoFault Utf8.Bytes) :
    Except Fault Config :=
  match contents with
  | .error cause => .error (.config (.unreadable path cause))
  | .ok bytes =>
    match Utf8.decode bytes with
    | .error _ => .error (.config (.unreadable path .invalidText))
    | .ok text =>
      match ofDocument? tempDir (.ofPath path) text with
      | none => .error (.config (.malformed path))
      | some c => .ok c

end BasicBlocks.Config
