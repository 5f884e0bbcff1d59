import BasicBlocks.Shell.Reader
import BasicBlocks.Shell.Utility

/-!
# Running shell scripts

What a script does, statement by statement. Each step has a cost in time, and a bound on the depth
of the steps stands for a script that never comes to an end.
-/

namespace BasicBlocks.Shell

open Utf8 (Bytes)
open Act

/-- What a segment contributes to the fields of a word. -/
inductive Atom
  /-- A character; one that may split a field does so if it is blank. -/
  | mark (m : Mark) (splits : Bool)
  /-- The end of a field. -/
  | gap
  /-- There is a field here, even an empty one. -/
  | hold

namespace Atom

def ofText (quoted splits : Bool) (s : String) : List Atom :=
  s.toList.map fun c => .mark ⟨c, quoted⟩ splits

/-- The value of an expansion. -/
def ofValue (quoted : Bool) (s : String) : List Atom :=
  if quoted then .hold :: ofText true false s else ofText false true s

def fieldsFrom (current : Option (List Mark)) : List Atom → List (List Mark)
  | [] => (current.map List.reverse).toList
  | .gap :: rest => (current.map List.reverse).toList ++ fieldsFrom none rest
  | .hold :: rest => fieldsFrom (some (current.getD [])) rest
  | .mark m splits :: rest =>
    if splits && m.char.isWhitespace then
      (current.map List.reverse).toList ++ fieldsFrom none rest
    else fieldsFrom (some (m :: current.getD [])) rest

def fields (atoms : List Atom) : List (List Mark) := fieldsFrom none atoms

/-- The characters without regard to fields. -/
def marks (atoms : List Atom) : List Mark :=
  atoms.filterMap fun a =>
    match a with
    | .mark m _ => some m
    | .gap => some ⟨' ', true⟩
    | .hold => none

def text (atoms : List Atom) : String := Pattern.plain (marks atoms)

end Atom

/-- What commands have written, without the line ends at its end. -/
def takenText (bytes : Bytes) : String :=
  let kept := (bytes.reverse.dropWhile (· = 10)).reverse
  Utf8.decodeLossy (kept.filter (· ≠ 0))

/-- How the shell begins a message about a line. -/
def lineMark (below : Nat) : Act String := do
  let m ← get
  return m.name ++ ": " ++ Numeral.decimal (m.lines + 1 - below) ++ ": "

/-- Directs a descriptor elsewhere; says why it cannot. -/
def redirectTo (below descriptor : Nat) (kind : RedirectKind) (target : String) :
    Act Bool := do
  let m ← get
  let send (sink : Sink) : Act Unit :=
    modify fun m => if descriptor = 2 then { m with errors := sink } else { m with output := sink }
  let refuse (why : String) : Act Bool := do
    complain ((← lineMark below) ++ why)
    return false
  match kind with
  | .text =>
    modify fun m => { m with input := Utf8.encode target }
    return true
  | .read =>
    if target = "/dev/null" then
      modify fun m => { m with input := [] }
      return true
    else
      match m.files.read target with
      | .ok bytes =>
        modify fun m => { m with input := bytes }
        return true
      | .error .notFound => refuse ("cannot open " ++ target ++ ": No such file")
      | .error cause => refuse ("cannot open " ++ target ++ ": " ++ cause.reason)
  | .duplicate =>
    match target with
    | "1" => send m.output
    | "2" => send m.errors
    | "-" => send .nowhere
    | _ => pure ()
    return true
  | .write | .append =>
    if target = "/dev/null" then
      send .nowhere
      return true
    else
      let kept := if kind = .append then (m.files.read target).toOption.getD [] else []
      match m.files.write target kept with
      | .ok files =>
        modify fun m => { m with files }
        match files.locate target with
        | .ok place => send (.file place)
        | .error _ => pure ()
        return true
      | .error .notFound => refuse ("cannot create " ++ target ++ ": Directory nonexistent")
      | .error cause => refuse ("cannot create " ++ target ++ ": " ++ cause.reason)

/-- The time that a command takes, in microseconds. -/
def builtinCost : Nat := 10

def programCost : Nat := 500

/-- Undoes redirections. What has been taken from an input that is not redirected stays taken. -/
def restore (before : Machine) (redirects : List Redirect) : Act Unit :=
  modify fun m =>
    { m with
      output := before.output, errors := before.errors
      input := if redirects.any (·.descriptor = 0) then before.input else m.input }

/-- The number that a command of the shell itself is given, if it is given one. -/
def numberOr (fallback below : Nat) (command : String) : List String → Act Nat
  | [] => return fallback
  | argument :: _ => do
    match Numeral.read? 10 argument.toList with
    | some n => return n
    | none =>
      complain ((← lineMark below) ++ command ++ ": Illegal number: " ++ argument)
      throw (.exited 2)

/-- The shell that the first lines of a script ask for. -/
def isShellScript (contents : Bytes) : Bool :=
  match contents with
  | 35 :: 33 :: rest =>
    let line := Utf8.decodeLossy (rest.takeWhile (· ≠ 10))
    let parts := ((line.splitOn " ").filter (· ≠ "")).map Utility.fileName
    match parts with
    | "env" :: shell :: _ => ["sh", "dash", "bash", "ash"].contains shell
    | shell :: _ => ["sh", "dash", "bash", "ash"].contains shell
    | [] => false
  | _ => false

mutual

def expandAll : Nat → List Segment → Act (List Atom)
  | 0, _ => throw .pending
  | _, [] => return []
  | n + 1, first :: rest => do
    let head ← expand n first
    return head ++ (← expandAll n rest)

def expand : Nat → Segment → Act (List Atom)
  | 0, _ => throw .pending
  | _, .text quoted s =>
    return if quoted && s.isEmpty then [.hold] else Atom.ofText quoted false s
  | n + 1, .output quoted commands => do
    let bytes ← takingOutput (inSubshell (run n commands))
    return Atom.ofValue quoted (takenText bytes)
  | n + 1, .arithmetic quoted expression => do
    let atoms ← expandAll n expression
    let m ← get
    match Arithmetic.value? (m.bindings.lookup ·) (Atom.text atoms) with
    | some value => return Atom.ofValue quoted (Numeral.intDecimal value)
    | none => throw (.exited 2)
  | n + 1, .parameter quoted name transform word => do
    let m ← get
    if transform = .plain && name = "@" then
      let each := m.arguments.map (Atom.ofValue quoted ·)
      return ([Atom.gap].intercalate each)
    else
      let value ← value? name
      let shown (s : String) : List Atom := Atom.ofValue quoted s
      let isSet (blank : Bool) : Bool := value.any fun v => !blank || v ≠ ""
      match transform with
      | .plain => return shown (value.getD "")
      | .length => return shown (Numeral.decimal (value.getD "").length)
      | .orElse blank =>
        if isSet blank then return shown (value.getD "") else expandAll n word
      | .whenSet blank => if isSet blank then expandAll n word else return shown ""
      | .assign blank =>
        if isSet blank then return shown (value.getD "")
        else
          let text := Atom.text (← expandAll n word)
          assign name text
          return shown text
      | .trim atEnd longest =>
        let pattern := Atom.marks (← expandAll n word)
        let cut := if atEnd then Pattern.trimEnd else Pattern.trimFront
        return shown (String.ofList (cut pattern longest (value.getD "").toList))

/-- The fields of words, with the paths that match them. -/
def fieldsOf : Nat → List (List Segment) → Act (List String)
  | 0, _ => throw .pending
  | _, [] => return []
  | n + 1, word :: rest => do
    let found := Atom.fields (← expandAll n word)
    let fs := (← get).files
    return found.flatMap (Pattern.paths fs ·) ++ (← fieldsOf n rest)

/-- Applies redirections in order; whether all could be. -/
def redirectAll : Nat → Nat → List Redirect → Act Bool
  | 0, _, _ => throw .pending
  | _, _, [] => return true
  | n + 1, below, .mk descriptor kind target :: rest => do
    let text := Atom.text (← expandAll n target)
    if ← redirectTo below descriptor kind text then redirectAll n below rest else return false

def assignAll : Nat → List (String × List Segment) → Act Unit
  | 0, _ => throw .pending
  | _, [] => return
  | n + 1, (name, value) :: rest => do
    let text := Atom.text (← expandAll n value)
    assign name text
    assignAll n rest

/-- Runs a command by its name. -/
def call : Nat → Nat → String → List String → Act Unit
  | 0, _, _, _ => throw .pending
  | n + 1, below, name, arguments => do
    match name with
    | "exit" | "return" =>
      throw (.exited ((← numberOr (← get).status below name arguments) % 256))
    | "break" => throw (.leave (← numberOr 1 below name arguments) false)
    | "continue" => throw (.leave (← numberOr 1 below name arguments) true)
    | "exec" =>
      match arguments with
      | [] => setStatus 0
      | name :: arguments =>
        call n below name arguments
        throw (.exited (← get).status)
    | "eval" => perform n (" ".intercalate arguments)
    | _ =>
      match Utility.builtins.lookup name with
      | some utility =>
        tick builtinCost
        setStatus (← utility arguments)
      | none => program n below name arguments

/-- Runs a program of its own: one that is known by its name, or a script. -/
def program : Nat → Nat → String → List String → Act Unit
  | 0, _, _, _ => throw .pending
  | n + 1, below, name, arguments => do
    tick programCost
    let m ← get
    let isBare := !name.toList.contains '/'
    let known := if isBare || name.startsWith "/bin/" || name.startsWith "/usr/bin/" then
        Utility.programs.lookup (Utility.fileName name)
      else none
    let refuse (code : Nat) (why : String) : Act Unit := do
      complain ((← lineMark below) ++ name ++ ": " ++ why)
      setStatus code
    match known with
    | some utility => setStatus (← utility arguments)
    | none =>
      if (isBare && ["sh", "dash"].contains name) || name = "/bin/sh" then
        match arguments with
        | "-c" :: text :: rest =>
          inSubshell do
            modify fun m =>
              { m with name := rest.headD m.name, arguments := rest.drop 1 }
            perform n text
        | path :: rest =>
          match m.files.read path with
          | .ok contents => nested n path rest contents
          | .error _ => refuse 127 "not found"
        | [] => inSubshell (perform n (Utf8.decodeLossy m.input))
      else if isBare then refuse 127 "not found"
      else
        match m.files.find name with
        | .ok (_, .file contents true) =>
          if isShellScript contents then nested n name arguments contents
          else refuse 126 "Exec format error"
        | .ok _ => refuse 126 "Permission denied"
        | .error _ => refuse 127 "not found"

/-- Runs a script as a program. -/
def nested : Nat → String → List String → Bytes → Act Unit
  | 0, _, _, _ => throw .pending
  | n + 1, name, arguments, contents => do
    let before ← get
    inSubshell do
      modify fun m => { m with name, arguments, status := 0 }
      perform n (Utf8.decodeLossy contents)
    modify fun m => { m with name := before.name }

/-- Runs a text as a script. -/
def perform : Nat → String → Act Unit
  | 0, _ => throw .pending
  | n + 1, text => do
    match Script.read? text with
    | none =>
      complain ((← get).name ++ ": Syntax error")
      throw (.exited 2)
    | some script =>
      let before ← get
      modify fun m => { m with lines := script.lines }
      run n script.body
      modify fun m => { m with lines := before.lines }

def run : Nat → Statement → Act Unit
  | 0, _ => throw .pending
  | _, .skip => return
  | n + 1, .simple below assignments words redirects => do
    let fields ← fieldsOf n words
    let before ← get
    let restore := restore before redirects
    match fields with
    | [] => do
      setStatus 0
      if ← redirectAll n below redirects then
        restore
        assignAll n assignments
      else
        restore
        setStatus 2
    | name :: arguments =>
      if ← redirectAll n below redirects then
        assignAll n assignments
        call n below name arguments
        if !(name = "exec" && arguments.isEmpty) then restore
        if !assignments.isEmpty then
          modify fun m => { m with bindings := before.bindings }
      else
        restore
        setStatus 2
  | n + 1, .sequence first second => do
    run n first
    run n second
  | n + 1, .both first second => do
    run n first
    if (← get).status = 0 then run n second
  | n + 1, .either first second => do
    run n first
    if (← get).status ≠ 0 then run n second
  | n + 1, .negation s => do
    run n s
    let m ← get
    setStatus (if m.status = 0 then 1 else 0)
  | n + 1, .pipe first second => do
    let bytes ← takingOutput (inSubshell (run n first))
    inSubshell do
      modify fun m => { m with input := bytes }
      run n second
  | n + 1, .background s => do
    let before ← get
    tryCatch (inSubshell (run n s)) fun stop =>
      match stop with
      | .pending => return
      | stop => throw stop
    modify fun m => { m with microseconds := before.microseconds + programCost }
    setStatus 0
  | n + 1, .choice condition yes no => do
    run n condition
    if (← get).status = 0 then run n yes
    else
      setStatus 0
      run n no
  | n + 1, .forEach name words body => do
    let values ← match words with
      | some words => fieldsOf n words
      | none => do pure (← get).arguments
    setStatus 0
    each n name values body
  | n + 1, .loop negated condition body => do
    tick builtinCost
    run n condition
    let goes := ((← get).status = 0) != negated
    if goes then
      if ← round n body then run n (.loop negated condition body)
    else setStatus 0
  | n + 1, .select subject cases => do
    let text := Atom.text (← expandAll n subject)
    setStatus 0
    branch n text cases
  | n + 1, .group subshell body redirects => do
    let before ← get
    let act : Act Unit := if subshell then inSubshell (run n body) else run n body
    if ← redirectAll n 0 redirects then act else setStatus 2
    restore before redirects

/-- One round of a loop, and whether the loop goes on. -/
def round : Nat → Statement → Act Bool
  | 0, _ => throw .pending
  | n + 1, body =>
    tryCatch (do run n body; return true) fun stop =>
      match stop with
      | .leave loops again =>
        if loops ≤ 1 then return again else throw (.leave (loops - 1) again)
      | stop => throw stop

def each : Nat → String → List String → Statement → Act Unit
  | 0, _, _, _ => throw .pending
  | _, _, [], _ => return
  | n + 1, name, value :: rest, body => do
    assign name value
    if ← round n body then each n name rest body

/-- Runs the first branch with a pattern that the text matches. -/
def branch : Nat → String → List (List (List Segment) × Statement) → Act Unit
  | 0, _, _ => throw .pending
  | _, _, [] => return
  | n + 1, text, (patterns, body) :: rest => do
    if ← anyFits n text patterns then run n body else branch n text rest

def anyFits : Nat → String → List (List Segment) → Act Bool
  | 0, _, _ => throw .pending
  | _, _, [] => return false
  | n + 1, text, pattern :: rest => do
    let marks := Atom.marks (← expandAll n pattern)
    if Pattern.fits marks text.toList then return true else anyFits n text rest

end

/-- The depth of steps after which a script counts as one that never ends. -/
def depthLimit : Nat := 100000

end BasicBlocks.Shell
