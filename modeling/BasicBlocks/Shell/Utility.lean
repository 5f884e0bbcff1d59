import BasicBlocks.Shell.Format
import BasicBlocks.Shell.Machine

/-!
# Shell utilities

The commands that a script finds without a file of their own, from their arguments to an exit code.
-/

namespace BasicBlocks.Shell

open Utf8 (Bytes)
open Act

abbrev Utility := List String → Act Nat

namespace Utility

def succeed : Utility := fun _ => return 0

def fail : Utility := fun _ => return 1

/-- Arguments with a blank between them, and a line end unless the first is `-n`. -/
def echo : Utility := fun arguments => do
  let (bare, arguments) := match arguments with
    | "-n" :: rest => (true, rest)
    | arguments => (false, arguments)
  let (bytes, cut) := Escape.expand (" ".intercalate arguments)
  print (bytes ++ if bare || cut then [] else [10])
  return 0

def printf : Utility
  | [] => return 2
  | format :: arguments => do
    let (format, arguments) := match format, arguments with
      | "--", format :: arguments => (format, arguments)
      | format, arguments => (format, arguments)
    print (Format.write format arguments)
    return 0

/-- The contents of a file, or of the input under the name `-`. -/
def contents? (command path : String) : Act (Option Bytes) := do
  let m ← get
  if path = "-" then return some m.input
  else
    match m.files.read path with
    | .ok bytes => return some bytes
    | .error cause =>
      complain (command ++ ": " ++ path ++ ": " ++ cause.reason)
      return none

/-- Does the same to every file, or to the input where none is named. -/
def onFiles (command : String) (paths : List String) (use : Bytes → Act Unit) : Act Nat := do
  let paths := if paths.isEmpty then ["-"] else paths
  paths.foldlM (fun code path => do
    match ← contents? command path with
    | some bytes =>
      use bytes
      return code
    | none => return 1) 0

def cat : Utility := fun paths => onFiles "cat" paths print

def linesOf (bytes : Bytes) : List Bytes :=
  let (done, last) := bytes.foldl (fun (acc : List Bytes × Bytes) b =>
    if b = 10 then ((b :: acc.2).reverse :: acc.1, []) else (acc.1, b :: acc.2)) ([], [])
  (if last.isEmpty then done else last.reverse :: done).reverse

/-- The count that the options of `head` and `tail` give, in bytes or lines. -/
def countOption : List String → Bool × Nat × List String
  | "-c" :: n :: rest => (true, (Numeral.read? 10 n.toList).getD 0, rest)
  | "-n" :: n :: rest => (false, (Numeral.read? 10 n.toList).getD 0, rest)
  | option :: rest =>
    match option.toList with
    | '-' :: 'c' :: n => (true, (Numeral.read? 10 n).getD 0, rest)
    | '-' :: 'n' :: n => (false, (Numeral.read? 10 n).getD 0, rest)
    | '-' :: n =>
      match Numeral.read? 10 n with
      | some n => (false, n, rest)
      | none => (false, 10, option :: rest)
    | _ => (false, 10, option :: rest)
  | [] => (false, 10, [])

def head : Utility := fun arguments =>
  let (inBytes, n, paths) := countOption arguments
  onFiles "head" paths fun bytes =>
    print (if inBytes then bytes.take n else ((linesOf bytes).take n).flatten)

def tail : Utility := fun arguments =>
  let (inBytes, n, paths) := countOption arguments
  let last {α : Type} (items : List α) : List α := items.drop (items.length - n)
  onFiles "tail" paths fun bytes =>
    print (if inBytes then last bytes else (last (linesOf bytes)).flatten)

def directoryName (path : String) : String :=
  let kept := (path.toList.reverse.dropWhile (· = '/')).dropWhile (· ≠ '/')
  let above := (kept.dropWhile (· = '/')).reverse
  if !above.isEmpty then String.ofList above
  else if path.toList.head? = some '/' then "/"
  else "."

def fileName (path : String) : String :=
  let kept := path.toList.reverse.dropWhile (· = '/')
  if kept.isEmpty then (if path.isEmpty then "" else "/")
  else String.ofList (kept.takeWhile (· ≠ '/')).reverse

def withoutSuffix (name suffix : String) : String :=
  if name ≠ suffix && suffix.toList.isSuffixOf name.toList then
    String.ofList (name.toList.take (name.length - suffix.length))
  else name

def dirname : Utility
  | [] => return 1
  | paths => do
    for path in paths do printText (directoryName path ++ "\n")
    return 0

def basename : Utility
  | [path] => do
    printText (fileName path ++ "\n")
    return 0
  | [path, suffix] => do
    printText (withoutSuffix (fileName path) suffix ++ "\n")
    return 0
  | _ => return 1

/-- A decimal number of seconds, perhaps with a unit, in microseconds. -/
def duration? (s : String) : Option Nat := do
  let whole := s.toList.takeWhile Char.isDigit
  let rest := s.toList.drop whole.length
  let (fraction, rest) := match rest with
    | '.' :: rest => (rest.takeWhile Char.isDigit, rest.dropWhile Char.isDigit)
    | rest => ([], rest)
  if whole.isEmpty && fraction.isEmpty then none
  else
    let scale ← match rest with
      | [] => some 1
      | ['s'] => some 1
      | ['m'] => some 60
      | ['h'] => some 3600
      | ['d'] => some 86400
      | _ => none
    let value ← Numeral.readFrom 10 0 (whole ++ fraction)
    return value * scale * 1000000 / Nat.pow 10 fraction.length

def sleep : Utility := fun arguments => do
  match arguments.mapM duration? with
  | some (first :: rest) =>
    tick ((first :: rest).foldl (· + ·) 0)
    return 0
  | _ =>
    complain ("sleep: invalid time interval")
    return 1

/-- Takes the options from the front of the arguments. -/
def options (arguments : List String) : List Char × List String :=
  let given := arguments.takeWhile fun a => a.length > 1 && a.toList.head? = some '-'
  ((given.flatMap (·.toList.drop 1)), arguments.drop given.length)

def forEachPath (paths : List String) (use : String → Act Nat) : Act Nat :=
  paths.foldlM (fun code path => do return max code (← use path)) 0

def mkdir : Utility := fun arguments =>
  let (given, paths) := options arguments
  forEachPath paths fun path => do
    if given.contains 'p' then
      let (files, result) := (← get).files.makeDirectories path
      modify fun m => { m with files }
      match result with
      | .ok () => return 0
      | .error cause =>
        complain ("mkdir: cannot create directory '" ++ path ++ "': " ++ cause.reason)
        return 1
    else
      changeFiles ("mkdir: cannot create directory '" ++ path ++ "'") (·.makeDirectory path)

def rm : Utility := fun arguments =>
  let (given, paths) := options arguments
  let deep := given.contains 'r' || given.contains 'R'
  forEachPath paths fun path => do
    let what := "rm: cannot remove '" ++ path ++ "'"
    match (← get).files.entryAt path with
    | .ok (_, .directory) =>
      if deep then changeFiles what (·.removeDirectory path)
      else
        complain (what ++ ": " ++ IoFault.isADirectory.reason)
        return 1
    | .ok _ => changeFiles what (·.removeFile path)
    | .error cause =>
      if given.contains 'f' then return 0
      else
        complain (what ++ ": " ++ cause.reason)
        return 1

def rmdir : Utility := fun paths =>
  forEachPath paths fun path => do
    let what := "rmdir: failed to remove '" ++ path ++ "'"
    let refuse (cause : IoFault) : Act Nat := do
      complain (what ++ ": " ++ cause.reason)
      return 1
    match (← get).files.entryAt path with
    | .ok (place, .directory) =>
      if ((← get).files.names place).isEmpty then changeFiles what (·.removeDirectory path)
      else refuse .directoryNotEmpty
    | .ok _ => refuse .notADirectory
    | .error cause => refuse cause

/-- Where a file goes: into a directory under its own name, or to a path. -/
def destination (fs : FileSystem) (source target : String) : String :=
  if fs.isDirectory target then Path.join target (fileName source) else target

def copyFile (command target source : String) : Act Nat := do
  let m ← get
  match m.files.read source with
  | .error cause =>
    complain (command ++ ": cannot stat '" ++ source ++ "': " ++ cause.reason)
    return 1
  | .ok bytes =>
    let target := destination m.files source target
    changeFiles (command ++ ": cannot create regular file '" ++ target ++ "'") (·.write target bytes)

def cp : Utility := fun arguments =>
  let (_, paths) := options arguments
  match paths.reverse with
  | target :: source :: more =>
    forEachPath (source :: more).reverse (copyFile "cp" target)
  | _ => return 1

def mv : Utility := fun arguments =>
  let (_, paths) := options arguments
  match paths.reverse with
  | target :: source :: more =>
    forEachPath (source :: more).reverse fun path => do
      let code ← copyFile "mv" target path
      if code = 0 then changeFiles ("mv: cannot remove '" ++ path ++ "'") (·.removeFile path)
      else return code
  | _ => return 1

/-- Makes a link to a path, at another one or in a directory there. -/
def ln : Utility := fun arguments =>
  let (given, paths) := options arguments
  match given.contains 's', paths with
  | true, [target, path] => do
    let path := destination (← get).files target path
    changeFiles ("ln: failed to create symbolic link '" ++ path ++ "'") (·.makeLink path target)
  | _, _ => return 1

def touch : Utility := fun paths =>
  forEachPath paths fun path => do
    if ((← get).files.find path).toOption.isSome then return 0
    else changeFiles ("touch: cannot touch '" ++ path ++ "'") (·.write path [])

def tee : Utility := fun arguments => do
  let (given, paths) := options arguments
  let input := (← get).input
  print input
  forEachPath paths fun path => do
    let m ← get
    let before := if given.contains 'a' then (m.files.read path).toOption.getD [] else []
    changeFiles ("tee: " ++ path) (·.write path (before ++ input))

def wc : Utility := fun arguments =>
  let (given, paths) := options arguments
  onFiles "wc" paths fun bytes => do
    let count := if given.contains 'l' then bytes.count 10 else bytes.length
    let names := if paths.isEmpty then "" else " " ++ " ".intercalate paths
    printText (Numeral.decimal count ++ names ++ "\n")

def seq : Utility := fun arguments => do
  let numbers := arguments.mapM fun a => Arithmetic.integer? a.toList
  let (first, step, last) := match numbers with
    | some [last] => (1, 1, last)
    | some [first, last] => (first, 1, last)
    | some [first, step, last] => (first, step, last)
    | _ => (1, 1, 0)
  let count := if step = 0 then 0 else ((last - first) / step + 1).toNat
  for i in List.range count do printText (Numeral.intDecimal (first + step * i) ++ "\n")
  return if numbers.isSome then 0 else 1

def pwd : Utility := fun _ => do
  match (← get).files.currentPath with
  | .ok path =>
    printText (path ++ "\n")
    return 0
  | .error cause =>
    complain ("pwd: " ++ cause.reason)
    return 1

def cd : Utility
  | [] => return 0
  | path :: _ => do
    match (← get).files.find path with
    | .ok (place, .directory) =>
      modify fun m => { m with files := { m.files with current := place } }
      return 0
    | _ =>
      complain ("cd: can't cd to " ++ path)
      return 2

def ls : Utility := fun arguments => do
  let (_, paths) := options arguments
  let path := paths.headD "."
  match (← get).files.list path with
  | .ok names =>
    let shown := (names.filter (·.toList.head? ≠ some '.')).mergeSort fun a b => !(b < a)
    for name in shown do printText (name ++ "\n")
    return 0
  | .error .notADirectory =>
    printText (path ++ "\n")
    return 0
  | .error cause =>
    complain ("ls: cannot access '" ++ path ++ "': " ++ cause.reason)
    return 2

/-- The mode that matters here is whether a file can be started. -/
def chmod : Utility
  | mode :: paths => forEachPath paths fun path => do
    let executable := mode.contains 'x' && !mode.contains '-' || mode.toList.any fun c =>
      c.isDigit && c.toNat % 2 = 1
    match (← get).files.find path with
    | .ok (place, .file contents _) =>
      modify fun m => { m with files := m.files.put place (.file contents executable) }
      return 0
    | .ok _ => return 0
    | .error cause =>
      complain ("chmod: cannot access '" ++ path ++ "': " ++ cause.reason)
      return 1
  | [] => return 1

def isLink (fs : FileSystem) (path : String) : Bool :=
  match fs.entryAt path with
  | .ok (_, .link _) => true
  | _ => false

def testUnary (operator operand : String) : Act (Option Bool) := do
  let fs := (← get).files
  return match operator with
    | "-n" => some (operand ≠ "")
    | "-z" => some (operand = "")
    | "-e" => some (fs.find operand).toOption.isSome
    | "-f" => some (fs.isFile operand)
    | "-d" => some (fs.isDirectory operand)
    | "-r" => some (fs.find operand).toOption.isSome
    | "-w" => some (fs.find operand).toOption.isSome
    | "-s" => some (((fs.read operand).toOption.getD []).length > 0 || fs.isDirectory operand)
    | "-x" =>
      match fs.find operand with
      | .ok (_, .file _ executable) => some executable
      | .ok _ => some true
      | .error _ => some false
    | "-L" => some (isLink fs operand)
    | "-h" => some (isLink fs operand)
    | _ => none

def testBinary (left operator right : String) : Option Bool :=
  let compare (relation : Int → Int → Bool) : Option Bool := do
    return relation (← Arithmetic.integer? left.toList) (← Arithmetic.integer? right.toList)
  match operator with
  | "=" => some (left = right)
  | "==" => some (left = right)
  | "!=" => some (left ≠ right)
  | "-eq" => compare fun a b => a = b
  | "-ne" => compare fun a b => a ≠ b
  | "-lt" => compare fun a b => a < b
  | "-le" => compare fun a b => a ≤ b
  | "-gt" => compare fun a b => b < a
  | "-ge" => compare fun a b => b ≤ a
  | _ => none

/-- The truth of a condition; nothing where it makes no sense. -/
def judge : Nat → List String → Act (Option Bool)
  | 0, _ => return none
  | _, [] => return some false
  | _, [word] => return some (word ≠ "")
  | n + 1, ["!", word] => do return (← judge n [word]).map (!·)
  | _, [operator, word] => testUnary operator word
  | n + 1, words => do
    match words with
    | [left, operator, right] =>
      match testBinary left operator right with
      | some b => return some b
      | none =>
        if left = "!" then return (← judge n [operator, right]).map (!·)
        else if operator = "-a" then return some (left ≠ "" && right ≠ "")
        else if operator = "-o" then return some (left ≠ "" || right ≠ "")
        else return none
    | _ =>
      let combine (operator : String) (f : Bool → Bool → Bool) : Act (Option Bool) := do
        let left := words.takeWhile (· ≠ operator)
        match ← judge n left, ← judge n (words.drop (left.length + 1)) with
        | some a, some b => return some (f a b)
        | _, _ => return none
      if words.contains "-o" then combine "-o" (· || ·)
      else if words.contains "-a" then combine "-a" (· && ·)
      else if words.head? = some "!" then return (← judge n words.tail).map (!·)
      else return none

def exitOf : Option Bool → Nat
  | some true => 0
  | some false => 1
  | none => 2

def test : Utility := fun words => do return exitOf (← judge (words.length + 1) words)

def bracket : Utility := fun words => do
  if words.getLast? = some "]" then test words.dropLast else return 2

def signals : List (String × Nat) :=
  [("HUP", 1), ("INT", 2), ("QUIT", 3), ("ABRT", 6), ("KILL", 9), ("USR1", 10), ("SEGV", 11),
    ("USR2", 12), ("PIPE", 13), ("ALRM", 14), ("TERM", 15), ("CHLD", 17), ("CONT", 18),
    ("STOP", 19), ("TSTP", 20), ("URG", 23), ("WINCH", 28)]

def signal? (name : String) : Option Nat :=
  let bare := if name.startsWith "SIG" then (name.drop 3).toString else name
  (signals.lookup bare.toUpper).or (Numeral.read? 10 name.toList)

/-- Signals that stop a program without ending it, or that it does not mind. -/
def kill : Utility := fun arguments => do
  let (signal, targets) := match arguments with
    | "-s" :: name :: rest => (signal? name, rest)
    | option :: rest =>
      match option.toList with
      | '-' :: name => (signal? (String.ofList name), rest)
      | _ => (some 15, option :: rest)
    | [] => (none, [])
  match signal with
  | none => return 2
  | some signal =>
    if targets.contains ownNumber then
      if signal = 0 || [17, 18, 23, 28].contains signal then return 0
      else if [19, 20, 21, 22].contains signal then throw .pending
      else throw .killed
    else
      complain "kill: No such process"
      return 1

def shift : Utility := fun arguments => do
  let n := ((arguments.head?.bind fun a => Numeral.read? 10 a.toList)).getD 1
  if (← get).arguments.length < n then return 2
  else
    modify fun m => { m with arguments := m.arguments.drop n }
    return 0

def setArguments : Utility := fun arguments => do
  match arguments with
  | "--" :: rest => modify fun m => { m with arguments := rest }
  | first :: rest =>
    if first.toList.head? ≠ some '-' then
      modify fun m => { m with arguments := first :: rest }
  | [] => return 0
  return 0

def export_ : Utility := fun arguments => do
  for argument in arguments do
    let name := argument.toList.takeWhile (· ≠ '=')
    match argument.toList.drop name.length with
    | _ :: value => assign (String.ofList name) (String.ofList value)
    | [] => pure ()
  return 0

def unset : Utility := fun names => do
  modify fun m => { m with bindings := m.bindings.filter fun v => !names.contains v.1 }
  return 0

/-- Reads a line into the last of some variables, one word into each before it. -/
def read : Utility := fun arguments => do
  let (_, names) := options arguments
  let m ← get
  let line := m.input.takeWhile (· ≠ 10)
  modify fun m => { m with input := m.input.drop (line.length + 1) }
  let rec fill : List String → List Char → Act Unit
    | [], _ => return
    | [name], cs =>
      let kept := (cs.dropWhile (·.isWhitespace)).reverse.dropWhile (·.isWhitespace)
      assign name (String.ofList kept.reverse)
    | name :: names, cs => do
      let cs := cs.dropWhile (·.isWhitespace)
      let word := cs.takeWhile (!·.isWhitespace)
      assign name (String.ofList word)
      fill names (cs.drop word.length)
  fill names (Utf8.decodeLossy line).toList
  return if line.length < m.input.length then 0 else 1

/-- Those that a script runs itself. -/
def builtins : List (String × Utility) :=
  [(":", succeed), ("true", succeed), ("false", fail), ("echo", echo), ("printf", printf),
    ("test", test), ("[", bracket), ("kill", kill), ("cd", cd), ("pwd", pwd), ("shift", shift),
    ("set", setArguments), ("export", export_), ("unset", unset), ("read", read),
    ("wait", succeed), ("trap", succeed), ("umask", succeed)]

/-- Those that are programs of their own. -/
def programs : List (String × Utility) :=
  [("cat", cat), ("head", head), ("tail", tail), ("dirname", dirname), ("basename", basename),
    ("sleep", sleep), ("mkdir", mkdir), ("rm", rm), ("rmdir", rmdir), ("cp", cp), ("mv", mv),
    ("ln", ln), ("touch", touch), ("tee", tee), ("wc", wc), ("seq", seq), ("ls", ls), ("chmod", chmod),
    ("echo", echo), ("printf", printf), ("true", succeed), ("false", fail), ("test", test),
    ("pwd", pwd), ("sync", succeed)]

end Utility
end BasicBlocks.Shell
