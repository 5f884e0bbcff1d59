import BasicBlocks.Shell.Evaluation
import BasicBlocks.Tool.Host

/-!
# A host for scripts

A host on which programs are shell scripts, or utilities that the shell knows. A program that is
named by a path has to be there, to be executable and to say that the shell runs it.
-/

namespace BasicBlocks.Shell

open Utf8 (Bytes)

/-- The time that it takes to start a program, in microseconds. -/
def startCost : Nat := 1000

def initial (fs : FileSystem) (name : String) (arguments : List String) (deadline : Option Nat) :
    Machine :=
  { files := fs, terminal := [], taken := [], input := [], output := .terminal
    errors := .terminal, bindings := (fs.currentPath.toOption.map ("PWD", ·)).toList, name
    arguments, status := 0, microseconds := startCost, deadline, lines := 0 }

/-- What an action does by the deadline. -/
def activity (act : Act Unit) (m : Machine) : Activity :=
  let (result, m') := ((do Act.tick 0; act : Act Unit).run m).run
  let milliseconds := (m'.microseconds + 999) / 1000
  let finished : Option (ExitCode × Nat) :=
    match result with
    | .ok () => some (some (m'.status : Int), milliseconds)
    | .error (.exited code) => some (some (code : Int), milliseconds)
    | .error (.leave ..) => some (some 0, milliseconds)
    | .error .killed => some (none, milliseconds)
    | .error .pending => none
  { files := { m'.files with current := m.files.current }, output := m'.terminal, finished }

def isUtilityPath (path : String) : Bool :=
  !path.toList.contains '/' || path.startsWith "/bin/" || path.startsWith "/usr/bin/"

def utilityOf? (path : String) : Option Utility :=
  if isUtilityPath path then Utility.programs.lookup (Utility.fileName path) else none

def start (c : Command) (fs : FileSystem) : Except IoFault (Option Nat → Activity) :=
  let machine := initial fs c.program c.arguments
  if c.program.toList.contains '\x00' then .error .nulInName
  else
    match utilityOf? c.program with
    | some utility =>
      .ok fun deadline => activity (do Act.setStatus (← utility c.arguments)) (machine deadline)
    | none =>
      if !c.program.toList.contains '/' then .error .notFound
      else
        match fs.find c.program with
        | .error cause => .error cause
        | .ok (_, .file contents true) =>
          if isShellScript contents then
            .ok fun deadline =>
              activity (perform depthLimit (Utf8.decodeLossy contents)) (machine deadline)
          else if contents.take 2 = [35, 33] then .error .notFound
          else .error .execFormat
        | .ok _ => .error .permissionDenied

end BasicBlocks.Shell

namespace BasicBlocks

def Host.ofScripts (owner : String) : Host := { owner, start := Shell.start }

end BasicBlocks
