import BasicBlocks.Text.Blank
import BasicBlocks.Text.Split
import BasicBlocks.Text.Tail
import BasicBlocks.Tool.Deadline
import BasicBlocks.Tool.Host
import BasicBlocks.Task

/-!
# Captured runs

An external tool is run to its end with all its output captured, within a time limit if there is
one. Any end but exit code zero is a failure.
-/

namespace BasicBlocks

/-- What is left of a successful run of a tool besides its files. -/
structure ToolRun where
  output : String
  milliseconds : Nat
  deriving DecidableEq, Repr

namespace Capture

/-- The most bytes of its output that a failure reports. -/
def reportedBytes : Nat := 4096

/-- The whole seconds among so many nanoseconds. -/
def wholeSeconds (time : Nat) : Word := UInt64.ofNat (time / Deadline.second)

/-- What comes of a wait of at most so many nanoseconds. -/
def conclude {α : Type} (tool : String) (limit : Nat) :
    Deadline.Verdict IoFault α → Traced Fault α
  | .finished a => return a
  | .unanswered cause => ⟨[], .error (.toolNotStarted tool cause)⟩
  | .expired => do
    Traced.report (.toolKilled tool (wholeSeconds limit))
    ⟨[], .error (.toolTimedOut tool (wholeSeconds limit))⟩

/-- How an activity ends, and after how many milliseconds that is known. Without a limit, one that
is never going to end is not waited for. -/
def ending (tool : String) (limit : Option Word) (a : Activity) : Traced Fault (ExitCode × Nat) :=
  match limit with
  | none => return a.finished.getD (none, 0)
  | some seconds => do
    -- The units stand on the left, as the kernel unfolds a product by its right factor.
    let limit := Deadline.second * seconds.toNat
    let waited := Deadline.wait limit (a.finished.map fun f => (f.1, Deadline.millisecond * f.2))
    let code ← conclude tool limit waited.verdict
    return (code, Deadline.pollTime limit (waited.polls - 1) / Deadline.millisecond)

def judge (tool : String) (limit : Option Word) (a : Activity) : Traced Fault ToolRun := do
  let output := Utf8.decodeLossy a.output
  match ← ending tool limit a with
  | (some 0, milliseconds) => return { output, milliseconds }
  | (code, _) =>
    Traced.report (.toolExited tool code output)
    ⟨[], .error (.toolFailed tool code (Tail.tail reportedBytes output))⟩

def run (host : Host) (tool : String) (limit : Option Word) (command : Command) :
    Task Fault ToolRun := do
  Task.report (.toolSpawning tool command.text)
  match ← Task.ask (host.start command) with
  | .error cause => Task.fail (.toolNotStarted tool cause)
  | .ok activity =>
    let done := activity (limit.map fun s => s.toNat * 1000)
    Task.change fun _ => .ok done.files
    Task.ofTraced (judge tool limit done)

/-- The first line that is not blank, without the blanks around it. -/
def firstLine? (output : String) : Option String :=
  (((Split.pieces '\n' output.toList).map Text.trim).find? (· ≠ [])).map String.ofList

/-- The version that a tool prints of itself, if that can be had. -/
def probe (host : Host) (tool : String) (limit : Option Word) (command : Command) :
    Task Empty (Option String) := do
  match ← (run host tool limit command).outcome with
  | .ok r => return firstLine? r.output
  | .error fault =>
    Task.report (.versionProbeFailed tool fault)
    return none

end Capture
end BasicBlocks
