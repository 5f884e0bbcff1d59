import BasicBlocks.Shell.Pattern
import BasicBlocks.Shell.Script

/-!
# The state of a shell

What a running script has: the files, its variables and arguments, where its output goes, and how
long it has been running. Actions on it may stop the script.
-/

namespace BasicBlocks.Shell

open Utf8 (Bytes)

/-- Where bytes are written. -/
inductive Sink
  | terminal
  /-- What a surrounding command takes up. -/
  | taken
  | file (place : Location)
  | nowhere
  deriving DecidableEq, Repr

inductive Stop
  | exited (code : Nat)
  | killed
  /-- Still running when nobody looks any more. -/
  | pending
  /-- Leaves so many loops, the last one perhaps only for its next round. -/
  | leave (loops : Nat) (again : Bool)
  deriving DecidableEq, Repr

structure Machine where
  files : FileSystem
  terminal : Bytes
  taken : Bytes
  input : Bytes
  output : Sink
  errors : Sink
  bindings : List (String × String)
  name : String
  arguments : List String
  status : Nat
  microseconds : Nat
  deadline : Option Nat
  lines : Nat

abbrev Act (α : Type) := ExceptT Stop (StateM Machine) α

/-- The number under which a script knows itself. -/
def ownNumber : String := "4242"

namespace Act

def tick (microseconds : Nat) : Act Unit := do
  modify fun m => { m with microseconds := m.microseconds + microseconds }
  let m ← get
  match m.deadline with
  | some limit => if limit * 1000 < m.microseconds then throw .pending
  | none => return

def emit (sink : Sink) (bytes : Bytes) : Act Unit :=
  modify fun m =>
    match sink with
    | .terminal => { m with terminal := m.terminal ++ bytes }
    | .taken => { m with taken := m.taken ++ bytes }
    | .nowhere => m
    | .file place =>
      match m.files.get? place with
      | some (.file contents executable) =>
        { m with files := m.files.put place (.file (contents ++ bytes) executable) }
      | _ => m

def print (bytes : Bytes) : Act Unit := do emit (← get).output bytes

def printText (s : String) : Act Unit := print (Utf8.encode s)

def complain (s : String) : Act Unit := do emit (← get).errors (Utf8.encode (s ++ "\n"))

def setStatus (code : Nat) : Act Unit := modify fun m => { m with status := code }

/-- Changes the files; says why it cannot. -/
def changeFiles (what : String) (f : FileSystem → Except IoFault FileSystem) : Act Nat := do
  match f (← get).files with
  | .ok files =>
    modify fun m => { m with files }
    return 0
  | .error cause =>
    complain (what ++ ": " ++ cause.reason)
    return 1

/-- The value of a parameter, if it is set. -/
def value? (name : String) : Act (Option String) := do
  let m ← get
  if name = "@" || name = "*" then return some (" ".intercalate m.arguments)
  else if name = "#" then return some (Numeral.decimal m.arguments.length)
  else if name = "?" then return some (Numeral.decimal m.status)
  else if name = "$" then return some ownNumber
  else if name = "-" || name = "!" then return some ""
  else
    match Numeral.read? 10 name.toList with
    | some 0 => return some m.name
    | some (n + 1) => return m.arguments[n]?
    | none => return m.bindings.lookup name

def assign (name value : String) : Act Unit :=
  modify fun m => { m with bindings := (name, value) :: m.bindings.filter (·.1 ≠ name) }

/-- What is written during an action. -/
def takingOutput (act : Act Unit) : Act Bytes := do
  let before ← get
  modify fun m => { m with taken := [], output := .taken }
  act
  let after ← get
  modify fun m => { m with taken := before.taken, output := before.output }
  return after.taken

/-- An action of a shell of its own, which leaves behind only files and output. -/
def inSubshell (act : Act Unit) : Act Unit := do
  let before ← get
  let ended (code : Nat) : Act Unit :=
    modify fun m =>
      { m with
        status := code, bindings := before.bindings, arguments := before.arguments,
        output := before.output, errors := before.errors, input := before.input,
        files := { m.files with current := before.files.current } }
  tryCatch (do act; ended (← get).status) fun stop =>
    match stop with
    | .exited code => ended code
    | .leave .. => ended 0
    | stop => throw stop

end Act
end BasicBlocks.Shell
