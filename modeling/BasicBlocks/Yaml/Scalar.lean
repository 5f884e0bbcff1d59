import BasicBlocks.Text.Numeral
import BasicBlocks.Yaml.Character

/-!
# YAML scalars

The texts of plain, quoted and block scalars. A scalar may run over several lines; the gap between
two of its words is kept as written within a line, and folded where it holds line breaks: one break
becomes a space, and of several the first is dropped.
-/

namespace BasicBlocks.Yaml

/-- What stands between two words of a scalar. -/
structure Gap where
  blanks : List Char
  /-- All line breaks, with the first in front. -/
  breaks : List Char
  deriving DecidableEq, Repr

def Gap.hasBreak (g : Gap) : Bool := !g.breaks.isEmpty

/-- A line feed is folded; other line breaks are kept. -/
def Gap.folded (g : Gap) : List Char :=
  match g.breaks with
  | [] => g.blanks
  | ['\n'] => [' ']
  | '\n' :: more => more
  | breaks => breaks

/-- Reads a gap. Blanks after a line break are indentation, in which `tabAllowed` says at what
columns a tab may stand. The bound is the number of characters left. -/
def takeGap (tabAllowed : Nat → Bool) : Nat → Gap → Cursor → Option (Gap × Cursor)
  | 0, gap, c => some (gap, c)
  | n + 1, gap, c =>
    match takeBreak? c with
    | some (b, later) => takeGap tabAllowed n ⟨[], gap.breaks ++ [b]⟩ later
    | none =>
      match c.rest with
      | b :: _ =>
        if !isBlank b then some (gap, c)
        else if !gap.hasBreak then takeGap tabAllowed n ⟨gap.blanks ++ [b], []⟩ (c.skip 1)
        else if b = '\t' && !tabAllowed c.position.column then none
        else takeGap tabAllowed n gap (c.skip 1)
      | [] => some (gap, c)

/-- A word of a plain scalar: up to a gap, a colon before a gap, or an indicator of the flow
collection around it. A colon right before such an indicator is an error. -/
def takePlainWord (inFlow : Bool) : List Char → Option (List Char × List Char)
  | [] => some ([], [])
  | c :: rest =>
    if isBlank c || isBreak c then some ([], c :: rest)
    else if c = ':' && atGap rest then some ([], c :: rest)
    else if inFlow && c = ':' && (match rest with
        | d :: _ => isFlowIndicator d || d = '?'
        | [] => false) then none
    else if inFlow && isFlowIndicator c then some ([], c :: rest)
    else (takePlainWord inFlow rest).map fun (word, rest) => (c :: word, rest)

/-- The words of a plain scalar, from where one may begin. `gap` is what precedes it and counts only
if a word follows. Returns whether the scalar ends behind a line break. -/
def takePlainFrom (inFlow : Bool) (indent : Nat) :
    Nat → List Char → Gap → Cursor → Option (List Char × Cursor × Bool)
  | 0, text, gap, c => some (text, c, gap.hasBreak)
  | n + 1, text, gap, c =>
    if atDocumentMark c || c.rest.head? = some '#' then some (text, c, gap.hasBreak)
    else
      match takePlainWord inFlow c.rest with
      | none => none
      | some (word, rest) =>
        let text := if word.isEmpty then text else text ++ gap.folded ++ word
        let gap := if word.isEmpty then gap else ⟨[], []⟩
        let after := c.upTo rest
        match rest with
        | [] => some (text, after, gap.hasBreak)
        | b :: _ =>
          if !(isBlank b || isBreak b) then some (text, after, gap.hasBreak)
          else
            match takeGap (fun column => indent ≤ column) rest.length gap after with
            | none => none
            | some (gap, later) =>
              if !inFlow && later.position.column < indent then
                some (text, later, gap.hasBreak)
              else takePlainFrom inFlow indent n text gap later

def takePlain (inFlow : Bool) (indent : Nat) (c : Cursor) : Option (List Char × Cursor × Bool) :=
  takePlainFrom inFlow indent (c.rest.length + 1) [] ⟨[], []⟩ c

/-- Letters after a backslash in double quotes, with the characters that they stand for. -/
def namedEscapes : List (Char × Char) :=
  [('0', '\x00'), ('a', '\x07'), ('b', '\x08'), ('t', '\t'), ('\t', '\t'), ('n', '\n'),
    ('v', '\x0b'), ('f', '\x0c'), ('r', '\r'), ('e', '\x1b'), (' ', ' '), ('"', '"'), ('/', '/'),
    ('\\', '\\'), ('N', '\u0085'), ('_', '\u00a0'), ('L', '\u2028'), ('P', '\u2029')]

/-- Letters that a number follows, with its count of digits. -/
def numberedEscapes : List (Char × Nat) := [('x', 2), ('u', 4), ('U', 8)]

/-- A character by its number. -/
def takeNumbered (width : Nat) (cs : List Char) : Option (Char × List Char) :=
  let digits := cs.take width
  if digits.length < width then none
  else
    match Numeral.read? 16 digits with
    | none => none
    | some n => if n.isValidChar then some (Char.ofNat n, cs.drop width) else none

/-- What a backslash stands for, with what follows; nothing is said of line breaks. -/
def takeEscape : List Char → Option (Char × List Char)
  | [] => none
  | letter :: rest =>
    match namedEscapes.lookup letter with
    | some meant => some (meant, rest)
    | none => (numberedEscapes.lookup letter).bind fun width => takeNumbered width rest

/-- How a word between quotes ends. -/
inductive WordEnd
  | quote
  | gap
  /-- A backslash before a line break: the break joins two words without a space. -/
  | escapedBreak
  deriving DecidableEq, Repr

/-- A word between single quotes; two quotes are one. -/
def takeSingleWord : List Char → List Char × WordEnd × List Char
  | [] => ([], .gap, [])
  | '\'' :: '\'' :: rest =>
    let (word, ending, rest) := takeSingleWord rest
    ('\'' :: word, ending, rest)
  | c :: rest =>
    if c = '\'' then ([], .quote, rest)
    else if isBlank c || isBreak c then ([], .gap, c :: rest)
    else
      let (word, ending, rest) := takeSingleWord rest
      (c :: word, ending, rest)

/-- A word between double quotes. The bound is the number of characters left. -/
def takeDoubleWord : Nat → List Char → Option (List Char × WordEnd × List Char)
  | 0, cs => some ([], .gap, cs)
  | _ + 1, [] => some ([], .gap, [])
  | n + 1, c :: rest =>
    if c = '"' then some ([], .quote, rest)
    else if isBlank c || isBreak c then some ([], .gap, c :: rest)
    else if c = '\\' then
      if !rest.isEmpty && atLineEnd rest then some ([], .escapedBreak, rest)
      else
        match takeEscape rest with
        | none => none
        | some (meant, rest) =>
          (takeDoubleWord n rest).map fun (word, ending, rest) => (meant :: word, ending, rest)
    else (takeDoubleWord n rest).map fun (word, ending, rest) => (c :: word, ending, rest)

def takeQuotedWord (double : Bool) (cs : List Char) : Option (List Char × WordEnd × List Char) :=
  if double then takeDoubleWord cs.length cs else some (takeSingleWord cs)

/-- The gap after an escaped line break: what is left of its breaks is kept. -/
def takeJoined (c : Cursor) : Option (List Char × Cursor) := do
  let (_, c) ← takeBreak? c
  let (gap, c) ← takeGap (fun _ => true) c.rest.length ⟨[], ['\n']⟩ c
  return (gap.breaks.drop 1, c)

/-- The words of a quoted scalar after its opening quote. It cannot hold a document mark. -/
def takeQuotedFrom (double : Bool) : Nat → List Char → Cursor → Option (List Char × Cursor)
  | 0, _, _ => none
  | n + 1, text, c =>
    if atDocumentMark c || c.rest.isEmpty then none
    else
      match takeQuotedWord double c.rest with
      | none => none
      | some (word, ending, rest) =>
        let text := text ++ word
        let after := c.upTo rest
        match ending with
        | .quote => some (text, after)
        | .escapedBreak =>
          match takeJoined after with
          | none => none
          | some (breaks, later) => takeQuotedFrom double n (text ++ breaks) later
        | .gap =>
          match takeGap (fun _ => true) rest.length ⟨[], []⟩ after with
          | none => none
          | some (gap, later) => takeQuotedFrom double n (text ++ gap.folded) later

def takeQuoted (double : Bool) (c : Cursor) : Option (List Char × Cursor) :=
  takeQuotedFrom double (c.rest.length + 1) [] (c.skip 1)

/-- What becomes of the line breaks at the end of a block scalar. -/
inductive Chomping
  | strip
  | clip
  | keep
  deriving DecidableEq, Repr

def takeChomping : List Char → Option Chomping × List Char
  | '+' :: rest => (some .keep, rest)
  | '-' :: rest => (some .strip, rest)
  | cs => (none, cs)

/-- A digit that is not zero; a zero is an error. -/
def takeIndentation : List Char → Option (Option Nat × List Char)
  | c :: rest =>
    if c = '0' then none
    else if c.isDigit then some (some (c.toNat - '0'.toNat), rest)
    else some (none, c :: rest)
  | [] => some (none, [])

/-- The header of a block scalar, its two parts in either order, up to the end of its line. -/
def takeBlockHeader (cs : List Char) : Option (Chomping × Option Nat × List Char) := do
  let (early, rest) := takeChomping cs
  let (indentation, rest) ← takeIndentation rest
  let (chomping, rest) := match early with
    | some chomping => (some chomping, rest)
    | none => if indentation.isSome then takeChomping rest else (none, rest)
  let rest := rest.dropWhile isBlank
  let rest := if rest.head? = some '#' then rest.dropWhile (!isBreak ·) else rest
  if atLineEnd rest then return (chomping.getD .clip, indentation, rest) else none

/-- The empty lines before a line of a block scalar, and its indentation. With no indentation given,
spaces are read without limit; `deepest` is the greatest column seen. -/
def takeEmptyLines (indent : Option Nat) :
    Nat → List Char → Nat → Cursor → Option (List Char × Nat × Cursor)
  | 0, breaks, deepest, c => some (breaks, deepest, c)
  | n + 1, breaks, deepest, c =>
    let inIndentation := match indent with
      | none => true
      | some width => c.position.column < width
    let deepest := max deepest c.position.column
    match c.rest.head? with
    | some ' ' =>
      if inIndentation then takeEmptyLines indent n breaks deepest (c.skip 1)
      else some (breaks, deepest, c)
    | some '\t' => if inIndentation then none else some (breaks, deepest, c)
    | _ =>
      match takeBreak? c with
      | some (b, later) => takeEmptyLines indent n (breaks ++ [b]) deepest later
      | none => some (breaks, deepest, c)

structure BlockState where
  text : List Char
  /-- The break that ended the line before. -/
  leading : List Char
  /-- The breaks of the empty lines since then. -/
  trailing : List Char
  afterBlank : Bool

/-- Joins the breaks before a line; in a folded scalar one break between two lines that begin with
no blank becomes a space. -/
def BlockState.join (s : BlockState) (folded : Bool) (beginsBlank : Bool) : List Char :=
  if folded && s.leading.head? = some '\n' && !s.afterBlank && !beginsBlank then
    if s.trailing.isEmpty then [' '] else s.trailing
  else s.leading ++ s.trailing

/-- The lines of a block scalar whose content begins at column `indent`. -/
def takeBlockLines (folded : Bool) (indent : Nat) :
    Nat → BlockState → Cursor → Option (BlockState × Cursor)
  | 0, s, c => some (s, c)
  | n + 1, s, c =>
    if c.position.column ≠ indent then some (s, c)
    else
      match c.rest with
      | [] => some (s, c)
      | first :: _ =>
        let line := c.rest.takeWhile (!isBreak ·)
        let rest := c.rest.dropWhile (!isBreak ·)
        let text := s.text ++ s.join folded (isBlank first) ++ line
        let ended := match takeBreak? (c.upTo rest) with
          | some (b, later) => ([b], later)
          | none => ([], c.upTo rest)
        match takeEmptyLines (some indent) (rest.length + 1) [] 0 ended.2 with
        | none => none
        | some (trailing, _, later) =>
          takeBlockLines folded indent n ⟨text, ended.1, trailing, isBlank first⟩ later

/-- A block scalar after its indicator; `parent` is the indentation around it. -/
def takeBlock (folded : Bool) (parent : Int) (c : Cursor) : Option (List Char × Cursor) := do
  let (chomping, indentation, rest) ← takeBlockHeader c.rest
  let c := c.upTo rest
  let c := match takeBreak? c with
    | some (_, later) => later
    | none => c
  let given := indentation.map fun width => (max parent 0).toNat + width
  let (trailing, deepest, c) ← takeEmptyLines given (c.rest.length + 1) [] 0 c
  let indent := given.getD (max (max deepest (parent + 1).toNat) 1)
  let (s, c) ← takeBlockLines folded indent (c.rest.length + 1) ⟨[], [], trailing, false⟩ c
  let ending := match chomping with
    | .strip => []
    | .clip => s.leading
    | .keep => s.leading ++ s.trailing
  return (s.text ++ ending, c)

end BasicBlocks.Yaml
