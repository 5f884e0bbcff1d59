import BasicBlocks.Shell.Script

/-!
# Reading shell scripts

A script is read by descent. Each function gives what it has read with the rest of the source, or
nothing where the script cannot be read. The depth of the descent is bounded by the length of the
script.
-/

namespace BasicBlocks.Shell.Reader

abbrev Source := List Char

/-- The quotation mark of the older form of command substitution. -/
def backquote : Char := Char.ofNat 0x60

def isBlank (c : Char) : Bool := c = ' ' || c = '\t'

/-- A character that ends a word. -/
def endsWord (c : Char) : Bool :=
  isBlank c || [';', '&', '|', '<', '>', '(', ')', '\n'].contains c

def isNameStart (c : Char) : Bool := c.isAlpha || c = '_'

def isNameChar (c : Char) : Bool := c.isAlphanum || c = '_'

def isSpecial (c : Char) : Bool := ['@', '*', '#', '?', '-', '$', '!'].contains c

/-- Past blanks, joined lines and a comment. -/
def skipBlanks : Source → Source
  | '\\' :: '\n' :: rest => skipBlanks rest
  | '#' :: rest => rest.dropWhile (· ≠ '\n')
  | c :: rest => if isBlank c then skipBlanks rest else c :: rest
  | [] => []

def skipLines : Nat → Source → Source
  | 0, cs => cs
  | n + 1, cs =>
    match skipBlanks cs with
    | '\n' :: rest => skipLines n rest
    | rest => rest

def skip (cs : Source) : Source := skipLines (cs.length + 1) cs

def below (cs : Source) : Nat := cs.count '\n'

/-- The word here, if it is plain. -/
def plainWord (cs : Source) : String := String.ofList (cs.takeWhile (!endsWord ·))

/-- Past a given plain word. -/
def keyword? (word : String) (cs : Source) : Option Source :=
  if plainWord cs = word then some (cs.drop word.length) else none

def closers : List String := ["then", "else", "elif", "fi", "do", "done", "esac", "\x7d"]

/-- Where a list of commands cannot go on. -/
def atEnd (cs : Source) : Bool :=
  match cs with
  | [] => true
  | ')' :: _ => true
  | ';' :: _ => true
  | _ => closers.contains (plainWord cs)

def descriptorOf (digits : List Char) (fallback : Nat) : Nat :=
  match digits with
  | [] => fallback
  | c :: _ => c.toNat - '0'.toNat

/-- A redirection operator, with its descriptor. -/
def redirect? (cs : Source) : Option (Nat × RedirectKind × Source) :=
  let digits := cs.takeWhile Char.isDigit
  match cs.drop digits.length with
  | '>' :: '>' :: rest => some (descriptorOf digits 1, .append, rest)
  | '>' :: '&' :: rest => some (descriptorOf digits 1, .duplicate, rest)
  | '>' :: '|' :: rest => some (descriptorOf digits 1, .write, rest)
  | '>' :: rest => some (descriptorOf digits 1, .write, rest)
  | '<' :: '<' :: rest => some (descriptorOf digits 0, .text, rest)
  | '<' :: '&' :: rest => some (descriptorOf digits 0, .duplicate, rest)
  | '<' :: rest => some (descriptorOf digits 0, .read, rest)
  | _ => none

/-- A name and an equals sign. -/
def assignment? (cs : Source) : Option (String × Source) :=
  let name := cs.takeWhile isNameChar
  if name.head?.any isNameStart then
    match cs.drop name.length with
    | '=' :: rest => some (String.ofList name, rest)
    | _ => none
  else none

/-- The lines of a text up to a delimiter, and what follows it. -/
def textBody (strip : Bool) (delimiter : List Char) : Nat → Source → Source × Source
  | 0, cs => ([], cs)
  | _, [] => ([], [])
  | n + 1, cs =>
    let line := cs.takeWhile (· ≠ '\n')
    let rest := (cs.drop line.length).drop 1
    let line := if strip then line.dropWhile (· = '\t') else line
    if line = delimiter then ([], rest)
    else
      let (body, rest) := textBody strip delimiter n rest
      (line ++ '\n' :: body, rest)

/-- The characters up to two closing parentheses. -/
def arithmeticBody : Nat → Source → Option (Source × Source)
  | _, [] => none
  | 0, ')' :: ')' :: rest => some ([], rest)
  | depth, '(' :: rest => (arithmeticBody (depth + 1) rest).map fun r => ('(' :: r.1, r.2)
  | depth, ')' :: rest => (arithmeticBody (depth - 1) rest).map fun r => (')' :: r.1, r.2)
  | depth, c :: rest => (arithmeticBody depth rest).map fun r => (c :: r.1, r.2)

/-- The commands between back quotes, without the backslashes that protect characters there. -/
def backquoteBody : Source → Option (Source × Source)
  | [] => none
  | '\\' :: c :: rest =>
    let kept := if c = backquote || c = '\\' || c = '$' then [c] else ['\\', c]
    (backquoteBody rest).map fun r => (kept ++ r.1, r.2)
  | c :: rest =>
    if c = backquote then some ([], rest) else (backquoteBody rest).map fun r => (c :: r.1, r.2)

/-- The operator on a parameter between braces. -/
def transform? : Source → Option (Transform × Source)
  | ':' :: '-' :: rest => some (.orElse true, rest)
  | '-' :: rest => some (.orElse false, rest)
  | ':' :: '=' :: rest => some (.assign true, rest)
  | '=' :: rest => some (.assign false, rest)
  | ':' :: '+' :: rest => some (.whenSet true, rest)
  | '+' :: rest => some (.whenSet false, rest)
  | '%' :: '%' :: rest => some (.trim true true, rest)
  | '%' :: rest => some (.trim true false, rest)
  | '#' :: '#' :: rest => some (.trim false true, rest)
  | '#' :: rest => some (.trim false false, rest)
  | '}' :: rest => some (.plain, '}' :: rest)
  | _ => none

/-- The name of a parameter between braces. -/
def parameterName? (cs : Source) : Option (String × Source) :=
  let named := cs.takeWhile isNameChar
  match cs with
  | [] => none
  | c :: rest =>
    if !named.isEmpty then some (String.ofList named, cs.drop named.length)
    else if isSpecial c then some (String.singleton c, rest)
    else none

mutual

/-- The segments up to a character at which they stop. -/
def segments (stop : Char → Bool) : Nat → Source → Option (List Segment × Source)
  | 0, _ => none
  | _, [] => some ([], [])
  | n + 1, '\'' :: rest =>
    let body := rest.takeWhile (· ≠ '\'')
    match rest.drop body.length with
    | [] => none
    | _ :: rest => do
      let (more, rest) ← segments stop n rest
      return (.text true (String.ofList body) :: more, rest)
  | n + 1, '"' :: rest => do
    let (inner, rest) ← quoted true n rest
    let (more, rest) ← segments stop n rest
    let inner := if inner.isEmpty then [.text true ""] else inner
    return (inner ++ more, rest)
  | n + 1, '\\' :: '\n' :: rest => segments stop n rest
  | n + 1, '\\' :: c :: rest => do
    let (more, rest) ← segments stop n rest
    return (.text true (String.singleton c) :: more, rest)
  | n + 1, '$' :: rest => do
    let (first, rest) ← dollar false n rest
    let (more, rest) ← segments stop n rest
    return (first :: more, rest)
  | n + 1, c :: rest =>
    if stop c then some ([], c :: rest)
    else if c = backquote then do
      let (body, rest) ← backquoteBody rest
      let (commands, _) ← list n body
      let (more, rest) ← segments stop n rest
      return (.output false commands :: more, rest)
    else do
      let (more, rest) ← segments stop n rest
      return (.text false (String.singleton c) :: more, rest)

/-- The segments between double quotes, or of a text that has none around it. -/
def quoted (closed : Bool) : Nat → Source → Option (List Segment × Source)
  | 0, _ => none
  | _, [] => if closed then none else some ([], [])
  | n + 1, '\\' :: '\n' :: rest => quoted closed n rest
  | n + 1, '\\' :: c :: rest => do
    let kept := c = '$' || c = '\\' || c = backquote || (closed && c = '"')
    let (more, rest) ← quoted closed n rest
    return (.text true (String.ofList (if kept then [c] else ['\\', c])) :: more, rest)
  | n + 1, '$' :: rest => do
    let (first, rest) ← dollar true n rest
    let (more, rest) ← quoted closed n rest
    return (first :: more, rest)
  | n + 1, c :: rest =>
    if closed && c = '"' then some ([], rest)
    else if c = backquote then do
      let (body, rest) ← backquoteBody rest
      let (commands, _) ← list n body
      let (more, rest) ← quoted closed n rest
      return (.output true commands :: more, rest)
    else do
      let (more, rest) ← quoted closed n rest
      return (.text true (String.singleton c) :: more, rest)

/-- What a dollar sign introduces; it stands for itself where it introduces nothing. -/
def dollar (isQuoted : Bool) : Nat → Source → Option (Segment × Source)
  | 0, _ => none
  | n + 1, '(' :: '(' :: rest => do
    let (body, rest) ← arithmeticBody 0 rest
    let (inner, _) ← quoted false n body
    return (.arithmetic isQuoted inner, rest)
  | n + 1, '(' :: rest => do
    let (commands, rest) ← list n rest
    match skip rest with
    | ')' :: rest => some (.output isQuoted commands, rest)
    | _ => none
  | n + 1, '{' :: rest => braces isQuoted n rest
  | _ + 1, c :: rest =>
    if c.isDigit || isSpecial c then
      some (.parameter isQuoted (String.singleton c) .plain [], rest)
    else if isNameStart c then
      let name := (c :: rest).takeWhile isNameChar
      some (.parameter isQuoted (String.ofList name) .plain [], (c :: rest).drop name.length)
    else some (.text isQuoted "$", c :: rest)
  | _ + 1, [] => some (.text isQuoted "$", [])

def braces (isQuoted : Bool) : Nat → Source → Option (Segment × Source)
  | 0, _ => none
  | n + 1, cs => do
    let (sized, named) := match cs with
      | '#' :: '}' :: _ => (false, cs)
      | '#' :: rest => (true, rest)
      | _ => (false, cs)
    let (name, rest) ← parameterName? named
    if sized then
      match rest with
      | '}' :: rest => some (.parameter isQuoted name .length [], rest)
      | _ => none
    else
      let (transform, rest) ← transform? rest
      let (word, rest) ← segments (· = '}') n rest
      match rest with
      | '}' :: rest => some (.parameter isQuoted name transform word, rest)
      | _ => none

/-- Commands up to where they cannot go on. -/
def list : Nat → Source → Option (Statement × Source)
  | 0, _ => none
  | n + 1, cs =>
    let cs := skip cs
    if atEnd cs then some (.skip, cs)
    else do
      let (first, rest) ← chain n cs
      match skipBlanks rest with
      | ';' :: ';' :: rest => some (first, ';' :: ';' :: rest)
      | ';' :: rest => do
        let (second, rest) ← list n rest
        return (.sequence first second, rest)
      | '\n' :: rest => do
        let (second, rest) ← list n rest
        return (.sequence first second, rest)
      | '&' :: rest => do
        let (second, rest) ← list n rest
        return (.sequence (.background first) second, rest)
      | rest => some (first, rest)

/-- Pipelines, each on condition of the one before. -/
def chain : Nat → Source → Option (Statement × Source)
  | 0, _ => none
  | n + 1, cs => do
    let (first, rest) ← pipeline n cs
    chainFrom n first rest

def chainFrom : Nat → Statement → Source → Option (Statement × Source)
  | 0, _, _ => none
  | n + 1, first, cs =>
    match skipBlanks cs with
    | '&' :: '&' :: rest => do
      let (second, rest) ← pipeline n (skip rest)
      chainFrom n (.both first second) rest
    | '|' :: '|' :: rest => do
      let (second, rest) ← pipeline n (skip rest)
      chainFrom n (.either first second) rest
    | rest => some (first, rest)

def pipeline : Nat → Source → Option (Statement × Source)
  | 0, _ => none
  | n + 1, cs =>
    match keyword? "!" cs with
    | some rest => do
      let (s, rest) ← pipeline n (skipBlanks rest)
      return (.negation s, rest)
    | none => do
      let (first, rest) ← command n cs
      match skipBlanks rest with
      | '|' :: '|' :: rest => some (first, '|' :: '|' :: rest)
      | '|' :: rest => do
        let (second, rest) ← pipeline n (skip rest)
        return (.pipe first second, rest)
      | rest => some (first, rest)

def command : Nat → Source → Option (Statement × Source)
  | 0, _ => none
  | n + 1, '(' :: rest => do
    let (body, rest) ← list n rest
    match skip rest with
    | ')' :: rest => do
      let (redirects, rest) ← redirections n rest
      return (.group true body redirects, rest)
    | _ => none
  | n + 1, cs =>
    match plainWord cs with
    | "if" => compound n (conditional n (cs.drop 2))
    | "while" => compound n (repeated false n (cs.drop 5))
    | "until" => compound n (repeated true n (cs.drop 5))
    | "for" => compound n (iteration n (cs.drop 3))
    | "case" => compound n (selection n (cs.drop 4))
    | "\x7b" => do
      let (body, rest) ← list n (cs.drop 1)
      let (redirects, rest) ← redirections n (← keyword? "\x7d" (skip rest))
      return (.group false body redirects, rest)
    | _ => simple n (below cs) [] [] [] cs

/-- A command with the redirections that follow it. -/
def compound : Nat → Option (Statement × Source) → Option (Statement × Source)
  | 0, _ => none
  | _, none => none
  | n + 1, some (body, rest) => do
    let (redirects, rest) ← redirections n rest
    return (if redirects.isEmpty then body else .group false body redirects, rest)

def conditional : Nat → Source → Option (Statement × Source)
  | 0, _ => none
  | n + 1, cs => do
    let (condition, rest) ← list n cs
    let (yes, rest) ← list n (← keyword? "then" (skip rest))
    let rest := skip rest
    match plainWord rest with
    | "fi" => some (.choice condition yes .skip, rest.drop 2)
    | "elif" => do
      let (no, rest) ← conditional n (rest.drop 4)
      return (.choice condition yes no, rest)
    | "else" => do
      let (no, rest) ← list n (rest.drop 4)
      return (.choice condition yes no, ← keyword? "fi" (skip rest))
    | _ => none

def repeated (negated : Bool) : Nat → Source → Option (Statement × Source)
  | 0, _ => none
  | n + 1, cs => do
    let (condition, rest) ← list n cs
    let (body, rest) ← list n (← keyword? "do" (skip rest))
    return (.loop negated condition body, ← keyword? "done" (skip rest))

def iteration : Nat → Source → Option (Statement × Source)
  | 0, _ => none
  | n + 1, cs => do
    let cs := skipBlanks cs
    let name := plainWord cs
    let rest := skip (cs.drop name.length)
    let (words, rest) ← match keyword? "in" rest with
      | some rest => (words n rest).map fun r => (some r.1, r.2)
      | none => some (none, rest)
    let rest := match skipBlanks rest with
      | ';' :: rest => rest
      | rest => rest
    let (body, rest) ← list n (← keyword? "do" (skip rest))
    return (.forEach name words body, ← keyword? "done" (skip rest))

/-- Words up to the end of a command. -/
def words : Nat → Source → Option (List (List Segment) × Source)
  | 0, _ => none
  | n + 1, cs =>
    let cs := skipBlanks cs
    match cs with
    | [] => some ([], [])
    | c :: _ =>
      if endsWord c then some ([], cs)
      else do
        let (first, rest) ← segments endsWord n cs
        let (more, rest) ← words n rest
        return (first :: more, rest)

def selection : Nat → Source → Option (Statement × Source)
  | 0, _ => none
  | n + 1, cs => do
    let (subject, rest) ← segments endsWord n (skipBlanks cs)
    let (cases, rest) ← branches n (← keyword? "in" (skip rest))
    return (.select subject cases, rest)

def branches : Nat → Source → Option (List (List (List Segment) × Statement) × Source)
  | 0, _ => none
  | n + 1, cs =>
    match skip cs with
    | rest =>
      match keyword? "esac" rest with
      | some rest => some ([], rest)
      | none => do
        let rest := match rest with
          | '(' :: rest => skipBlanks rest
          | rest => rest
        let (patterns, rest) ← alternatives n rest
        let (body, rest) ← list n rest
        match skip rest with
        | ';' :: ';' :: rest => do
          let (more, rest) ← branches n rest
          return ((patterns, body) :: more, rest)
        | rest => do
          return ([(patterns, body)], ← keyword? "esac" rest)

/-- The patterns of a branch. -/
def alternatives : Nat → Source → Option (List (List Segment) × Source)
  | 0, _ => none
  | n + 1, cs => do
    let (pattern, rest) ← segments endsWord n (skipBlanks cs)
    match skipBlanks rest with
    | ')' :: rest => some ([pattern], rest)
    | '|' :: rest => do
      let (more, rest) ← alternatives n rest
      return (pattern :: more, rest)
    | _ => none

def redirections : Nat → Source → Option (List Redirect × Source)
  | 0, _ => none
  | n + 1, cs =>
    let cs := skipBlanks cs
    match redirect? cs with
    | none => some ([], cs)
    | some found => do
      let (first, rest) ← redirection n found
      let (more, rest) ← redirections n rest
      return (first :: more, rest)

/-- The rest of a redirection after its operator. A text begins on the next line. -/
def redirection : Nat → Nat × RedirectKind × Source → Option (Redirect × Source)
  | 0, _ => none
  | n + 1, (descriptor, .text, rest) => do
    let (strip, rest) := match rest with
      | '-' :: rest => (true, rest)
      | rest => (false, rest)
    let rest := skipBlanks rest
    let written := rest.takeWhile (!endsWord ·)
    let delimiter := written.filter fun c => c ≠ '\'' && c ≠ '"' && c ≠ '\\'
    let rest := rest.drop written.length
    let line := rest.takeWhile (· ≠ '\n')
    let after := (rest.drop line.length).drop 1
    let (body, after) := textBody strip delimiter (after.length + 1) after
    let rest := line ++ '\n' :: after
    if delimiter = written then
      let (inner, _) ← quoted false n body
      return (.mk descriptor .text inner, rest)
    else return (.mk descriptor .text [.text true (String.ofList body)], rest)
  | n + 1, (descriptor, kind, rest) => do
    let (target, rest) ← segments endsWord n (skipBlanks rest)
    if target.isEmpty then none else return (.mk descriptor kind target, rest)

/-- A command from its parts so far. -/
def simple : Nat → Nat → List (String × List Segment) → List (List Segment) → List Redirect →
    Source → Option (Statement × Source)
  | 0, _, _, _, _, _ => none
  | n + 1, lines, assignments, found, redirects, cs =>
    let cs := skipBlanks cs
    match redirect? cs with
    | some r => do
      let (r, rest) ← redirection n r
      simple n lines assignments found (redirects ++ [r]) rest
    | none =>
      let finished := match cs with
        | [] => true
        | c :: _ => endsWord c
      if finished then
        if assignments.isEmpty && found.isEmpty && redirects.isEmpty || cs.head? = some '(' then
          none
        else some (.simple lines assignments found redirects, cs)
      else
        match (if found.isEmpty then assignment? cs else none) with
        | some (name, rest) => do
          let (value, rest) ← segments endsWord n rest
          simple n lines (assignments ++ [(name, value)]) found redirects rest
        | none => do
          let (word, rest) ← segments endsWord n cs
          simple n lines assignments (found ++ [word]) redirects rest

end

end Reader

/-- Nothing where the text is no script. -/
def Script.read? (text : String) : Option Script := do
  let source := text.toList
  let (body, rest) ← Reader.list (10 * source.length + 10) source
  if rest.isEmpty then some ⟨Reader.below source, body⟩ else none

end BasicBlocks.Shell
