import BasicBlocks.Config
import BasicBlocks.Yaml.Plain

/-!
# Configurations in YAML

A setting that wants a text takes any scalar as it is written, one that wants another value only a
plain scalar. A launcher is read as a whole before its kind is known: there a plain scalar is a text
only if it is nothing else, and a tag of the document's own is refused.
-/

namespace BasicBlocks

namespace Yaml.Node

/-- The deepest level at which a collection is read. -/
def maxLevel : Nat := 128

def asText? : Node → Option String
  | .scalar _ _ text => some text
  | _ => none

def asPlain? {α : Type} (read : String → Option α) : Node → Option α
  | .scalar _ .plain text => read text
  | _ => none

/-- The tag that names no value at all. -/
def nullTag : String := "tag:yaml.org,2002:null"

/-- Null and the empty scalar are no value; the tag for null admits nothing else. -/
def asOptional? {α : Type} (read : Node → Option α) (node : Node) : Option (Option α) :=
  match node with
  | .scalar none .plain text =>
    if text.isEmpty || Plain.isNull text then some none else (read node).map some
  | .scalar (some tag) .plain text =>
    if tag = nullTag then (if Plain.isNull text then some none else none)
    else (read node).map some
  | node => (read node).map some

/-- The name in a document's own tag. -/
def ownTag? (tag : Option String) : Option String :=
  match tag.map String.toList with
  | some ['!'] => some "!"
  | some ('!' :: name) => some (String.ofList name)
  | _ => none

/-- A case is named by a scalar, or by a tag on nothing. -/
def asCase? {α : Type} (cases : List (String × α)) : Node → Option α
  | .scalar tag style text =>
    match ownTag? tag with
    | none => cases.lookup text
    | some name =>
      if style = .plain && (text.isEmpty || Plain.isNull text) then cases.lookup name else none
  | _ => none

/-- The tags of values that plain scalars can be. -/
def coreTag (name : String) : String := "tag:yaml.org,2002:" ++ name

/-- What a scalar is where any value may stand: `none` if it cannot stand there, and else its text
if it is one. -/
def scalarValue? (tag : Option String) (style : Style) (text : String) : Option (Option String) :=
  match ownTag? tag, tag with
  | some _, _ => none
  | none, none =>
    if style = .plain then
      match Plain.kind text with
      | .tooWide => none
      | .text => some (some text)
      | _ => some none
    else some (some text)
  | none, some t =>
    if t = coreTag "bool" then (Plain.bool? text).map fun _ => none
    else if t = coreTag "int" then
      (Plain.integer? text).bind fun i => if Plain.isWide i then none else some none
    else if t = coreTag "float" then
      if Plain.isFloat text || (Plain.integer? text).isSome then some none else none
    else if t = nullTag then if Plain.isNull text then some none else none
    else some (some text)

mutual

/-- Whether a node may stand where any value may. -/
def isValue (level : Nat) : Node → Bool
  | .scalar tag style text => (scalarValue? tag style text).isSome
  | .sequence tag items => (ownTag? tag).isNone && level ≤ maxLevel && areValues (level + 1) items
  | .mapping tag entries =>
    (ownTag? tag).isNone && level ≤ maxLevel && areEntries (level + 1) entries
  | .cycle => false

def areValues (level : Nat) : List Node → Bool
  | [] => true
  | n :: rest => isValue level n && areValues level rest

def areEntries (level : Nat) : List (Node × Node) → Bool
  | [] => true
  | (key, value) :: rest => isValue level key && isValue level value && areEntries level rest

end

/-- The text of a scalar that is one. -/
def valueText? : Node → Option String
  | .scalar tag style text => (scalarValue? tag style text).join
  | _ => none

/-- A key as a name; a whole number names nothing that is known, and what is neither is no key. -/
def keyName? : Node → Option String
  | .scalar tag style text =>
    match scalarValue? tag style text with
    | some (some name) => some name
    | some none => (Plain.word? text).map fun _ => ""
    | none => none
  | _ => none

def namedEntries? (entries : List (Node × Node)) (name : Node → Option String) :
    Option (List (String × Node)) :=
  entries.mapM fun e => (name e.1).map (·, e.2)

/-- The only value of a name, if there is one; fails where there are several. -/
def entry (entries : List (String × Node)) (name : String) : Option (Option Node) :=
  match entries.filter (·.1 = name) with
  | [] => some none
  | [e] => some (some e.2)
  | _ => none

end Yaml.Node

open Yaml

/-- The launcher that a node at the second level gives. -/
def Launcher.ofNode? (node : Node) : Option Launcher :=
  if !node.isValue 2 then none
  else
    match node with
    | .mapping _ entries => do
      let named ← Node.namedEntries? entries Node.keyName?
      match ← Node.entry named "kind" with
      | none => none
      | some kind =>
        Launcher.ofSettings? (← kind.asText?)
          (.named ((named.filter (·.1 ≠ "kind")).map fun e => (e.1, e.2.valueText?)))
    | .sequence _ (kind :: settings) => do
      Launcher.ofSettings? (← kind.asText?) (.positional (settings.map Node.valueText?))
    | _ => none

namespace Config

def orElse {α : Type} (fallback : α) (read : Node → Option α) : Option Node → Option α
  | none => some fallback
  | some n => read n

/-- The configuration in a document; an empty document sets nothing. -/
def ofNode? (tempDir : String) (node : Node) : Option Config :=
  match node with
  | .scalar _ .plain text => if text.isEmpty then some (.default tempDir) else none
  | .mapping _ entries => do
    let named ← Node.namedEntries? entries Node.asText?
    match ← fieldNames.mapM (Node.entry named) with
    | [launcher, scratchDir, isolateRuns, timeout, scope, cleanup] =>
      return { launcher := ← orElse .default Launcher.ofNode? launcher
               scratchDir := ← orElse (defaultScratchDir tempDir) Node.asText? scratchDir
               isolateRuns := ← orElse true (Node.asPlain? Plain.bool?) isolateRuns
               timeoutSeconds :=
                ← orElse none (Node.asOptional? (Node.asPlain? Plain.word?)) timeout
               scope := ← orElse .cfg (Node.asCase? Scope.names) scope
               cleanup := ← orElse true (Node.asPlain? Plain.bool?) cleanup }
    | _ => none
  | _ => none

end Config
end BasicBlocks
