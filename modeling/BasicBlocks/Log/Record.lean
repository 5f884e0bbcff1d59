import BasicBlocks.Event
import BasicBlocks.Json.Decoding

/-!
# Log records

An event as it is logged: how grave it is, which part of the program it comes from, and its values
by name, a message among them.
-/

namespace BasicBlocks.Log

inductive Level
  | error
  | warn
  | info
  | debug
  | trace
  deriving DecidableEq, Repr

/-- The less grave, the higher. -/
def Level.rank : Level → Nat
  | .error => 1
  | .warn => 2
  | .info => 3
  | .debug => 4
  | .trace => 5

def Level.label : Level → String
  | .error => "ERROR"
  | .warn => "WARN"
  | .info => "INFO"
  | .debug => "DEBUG"
  | .trace => "TRACE"

structure Record where
  level : Level
  target : String
  message : String
  values : List (String × Json)

def commandTarget : String := "ddfacts"

def extractTarget : String := "ddfacts_core::extract"

def factsTarget : String := "ddfacts_core::facts"

def reconcileTarget : String := "ddfacts_core::reconcile"

def toolTarget : String := "ddfacts_core::tool"

def scratchTarget : String := "ddfacts_core::scratch"

open Json (ofText ofWord ofFloat)

def ofCount (n : Nat) : Json := .number (Numeral.decimal n)

def Record.ofEvent : Event → Record
  | .starting version =>
    ⟨.debug, commandTarget, "ddfacts starting", [("version", ofText version)]⟩
  | .shortLine source line =>
    ⟨.trace, factsTarget, "skipping short fact line",
      [("source", ofText source), ("line", ofCount line)]⟩
  | .overrun o =>
    ⟨.debug, reconcileTarget, "block walk overran end",
      [("block", ofWord o.block), ("size", ofWord o.size), ("overshoot", ofWord o.overshoot)]⟩
  | .stageChanged left entered =>
    ⟨.trace, extractTarget, "extraction stage",
      [("from", ofText left.label), ("to", ofText entered.label)]⟩
  | .tablesReconciled exhaustive blocks =>
    ⟨.debug, extractTarget, "reconciled fact tables",
      [("exhaustive", ofCount exhaustive), ("blocks", ofCount blocks)]⟩
  | .extractionStarted format kind =>
    ⟨.info, extractTarget, "extraction started",
      [("format", ofText format.label), ("subtype", ofText kind.label)]⟩
  | .formatSkipped tool =>
    ⟨.info, extractTarget, "file is of unknown format, skipping " ++ tool, []⟩
  | .toolOutput output => ⟨.debug, extractTarget, "tool output", [("output", ofText output)]⟩
  | .spaceSelected space format kind =>
    ⟨.debug, extractTarget, "address space selected",
      [("space", ofText space.label), ("format", ofText format.label),
        ("subtype", ofText kind.label)]⟩
  | .extractionFinished instructions blocks seconds =>
    ⟨.info, extractTarget, "extraction finished",
      [("instructions", ofCount instructions), ("blocks", ofCount blocks),
        ("elapsed", ofFloat seconds)]⟩
  | .extractionAborted failure =>
    ⟨.warn, extractTarget, "extraction aborted",
      [("stage", ofText failure.stage.label), ("error", ofText failure.fault.message)]⟩
  | .toolSpawning tool command =>
    ⟨.debug, toolTarget, "spawning external tool",
      [("tool", ofText tool), ("command", ofText command)]⟩
  | .toolExited tool code output =>
    ⟨.error, toolTarget, "tool returned with non-zero exit code",
      [("tool", ofText tool), ("code", ofText (Fault.exitCodeText code)),
        ("output", ofText output)]⟩
  | .toolKilled tool seconds =>
    ⟨.error, toolTarget, "tool timed out and was killed",
      [("tool", ofText tool), ("seconds", ofWord seconds)]⟩
  | .versionProbeFailed tool fault =>
    ⟨.debug, toolTarget, "version probe failed",
      [("tool", ofText tool), ("error", ofText fault.message)]⟩
  | .artifactsUnlistable directory cause =>
    ⟨.warn, scratchTarget, "cannot list scratch artifacts",
      [("dir", ofText directory), ("error", ofText cause.message)]⟩
  | .artifactKept path cause =>
    ⟨.warn, scratchTarget, "failed to remove scratch artifact",
      [("path", ofText path), ("error", ofText cause.message)]⟩
  | .runDirectoryKept directory cause =>
    ⟨.warn, scratchTarget, "failed to remove run scratch dir",
      [("dir", ofText directory), ("error", ofText cause.message)]⟩
  | .inputKept path cause =>
    ⟨.warn, extractTarget, "failed to remove materialized input",
      [("path", ofText path), ("error", ofText cause.message)]⟩

/-- The values with the message, in the order of their names. -/
def Record.fields (r : Record) : Json :=
  let named := ("message", ofText r.message) :: r.values
  .object (named.foldl (fun acc v => Json.insertMember v.1 v.2 acc) [])

/-- The run within which something is logged. -/
structure Span where
  tool : String
  binary : String
  deriving DecidableEq, Repr

/-- A span belongs to the extraction and is of the level of its start. -/
def Span.level : Level := .info

def Span.target : String := extractTarget

def Span.toJson (s : Span) : Json :=
  .object [("binary", ofText s.binary), ("tool", ofText s.tool), ("name", ofText "extract")]

/-- A record with the span around it, if that is logged too. -/
structure Entry where
  record : Record
  span : Option Span

/-- An entry as a line of JSON. -/
def Entry.toJson (e : Entry) (time : String) : Json :=
  let span := e.span.map fun s => ("span", s.toJson)
  let spans := e.span.map fun s => ("spans", Json.array [s.toJson])
  .object ([("timestamp", ofText time), ("level", ofText e.record.level.label),
      ("fields", e.record.fields), ("target", ofText e.record.target)]
    ++ span.toList ++ spans.toList)

/-- An entry as a line to be read by people. -/
def Entry.line (e : Entry) (time : String) : String :=
  let label := e.record.level.label
  let padded := String.ofList (List.replicate (5 - label.length) ' ') ++ label
  let span := match e.span with
    | some s =>
      "extract\x7btool=\"" ++ s.tool ++ "\" binary=" ++ s.binary ++ "\x7d: "
    | none => ""
  let values := e.record.values.map fun v => " " ++ v.1 ++ "=" ++ v.2.compact
  time ++ " " ++ padded ++ " " ++ span ++ e.record.target ++ ": " ++ e.record.message
    ++ String.join values

end BasicBlocks.Log
