import BasicBlocks.Yaml.Token

/-!
# YAML tokens in text

Cuts a text into tokens. A node that may turn out to be a key leaves a mark where it begins; when
a colon follows in time the mark is confirmed, and in the end confirmed marks become key tokens and
the others vanish. A key that opens a block mapping also opens its indentation there. A key has to
end on the line where it begins, within 1024 characters.
-/

namespace BasicBlocks.Yaml

/-- A node that may be a key. -/
structure Candidate where
  mark : Nat
  /-- Nothing else can stand at this column. -/
  required : Bool
  position : Position
  deriving DecidableEq, Repr

/-- Tokens with the marks of candidates between them. -/
inductive Item
  | token (t : Token)
  | mark (number : Nat)
  deriving DecidableEq, Repr

structure Lexer where
  cursor : Cursor
  /-- The candidate of the innermost level, and those of the levels around it. -/
  candidate : Option Candidate
  outer : List (Option Candidate)
  /-- The column of the innermost block collection, and those around it. -/
  indent : Int
  indents : List Int
  keyAllowed : Bool
  /-- Last first. -/
  items : List Item
  marks : Nat
  /-- Confirmed marks; true for those that open a block mapping. -/
  confirmed : List (Nat × Bool)

namespace Lexer

def start (c : Cursor) : Lexer :=
  { cursor := c, candidate := none, outer := [], indent := -1, indents := [], keyAllowed := true,
    items := [], marks := 0, confirmed := [] }

def inFlow (l : Lexer) : Bool := !l.outer.isEmpty

def emit (l : Lexer) (t : Token) : Lexer := { l with items := .token t :: l.items }

def skip (l : Lexer) (n : Nat) : Lexer := { l with cursor := l.cursor.skip n }

def allowKeys (l : Lexer) (allowed : Bool) : Lexer := { l with keyAllowed := allowed }

/-- A candidate that is too old is none any more; if it was required, that is an error. -/
def expire (now : Position) : Option Candidate → Option (Option Candidate)
  | none => some none
  | some k =>
    if k.position.line < now.line || k.position.index + 1024 < now.index then
      if k.required then none else some none
    else some (some k)

def expireAll (l : Lexer) : Option Lexer := do
  let now := l.cursor.position
  let candidate ← expire now l.candidate
  let outer ← l.outer.mapM (expire now)
  return { l with candidate, outer }

def dropCandidate (l : Lexer) : Option Lexer :=
  match l.candidate with
  | some k => if k.required then none else some { l with candidate := none }
  | none => some l

/-- Marks the node that begins here as a candidate, where a key may begin. -/
def noteCandidate (l : Lexer) : Option Lexer :=
  if !l.keyAllowed then some l
  else do
    let l ← l.dropCandidate
    let position := l.cursor.position
    let required := !l.inFlow && l.indent = position.column
    return { l with
      candidate := some ⟨l.marks, required, position⟩
      marks := l.marks + 1
      items := .mark l.marks :: l.items }

/-- Whether a block collection at this column is a new one. -/
def isDeeper (l : Lexer) (column : Nat) : Bool := !l.inFlow && l.indent < column

def openIndent (l : Lexer) (column : Nat) : Lexer :=
  { l with indent := column, indents := l.indent :: l.indents }

/-- Opens a block collection here, unless it is open. -/
def roll (l : Lexer) (opening : Token) : Lexer :=
  let column := l.cursor.position.column
  if l.isDeeper column then (l.openIndent column).emit opening else l

/-- Closes the block collections that are deeper than a column. -/
def unrollWithin (column : Int) : Nat → Lexer → Lexer
  | 0, l => l
  | n + 1, l =>
    if l.inFlow || l.indent ≤ column then l
    else
      unrollWithin column n
        ({ l with indent := l.indents.headD (-1), indents := l.indents.drop 1 }.emit .blockEnd)

def unroll (l : Lexer) (column : Int) : Lexer := unrollWithin column (l.indents.length + 1) l

/-- Blanks, comments and line breaks before the next token. A tab may not indent a block. In block
context a key may begin on a new line. -/
def skipGap (inFlow : Bool) : Bool → Bool → List Char → Position → Cursor × Bool
  | allowed, _, [], p => (⟨[], p⟩, allowed)
  | allowed, inComment, c :: rest, p =>
    if isBreak c then
      match c, rest with
      | '\r', '\n' :: rest => skipGap inFlow (allowed || !inFlow) false rest (p.newLine 2)
      | _, rest => skipGap inFlow (allowed || !inFlow) false rest (p.newLine 1)
    else if inComment || c = '#' then skipGap inFlow allowed true rest p.next
    else if c = ' ' || (c = '\t' && (inFlow || !allowed)) then
      skipGap inFlow allowed false rest p.next
    else (⟨c :: rest, p⟩, allowed)

def toToken (l : Lexer) : Lexer :=
  let (cursor, keyAllowed) :=
    skipGap l.inFlow l.keyAllowed false l.cursor.rest l.cursor.position
  { l with cursor, keyAllowed }

def openFlow (l : Lexer) (opening : Token) : Option Lexer := do
  let l ← l.noteCandidate
  return (({ l with outer := l.candidate :: l.outer, candidate := none }.allowKeys true).skip 1).emit
    opening

def closeFlow (l : Lexer) (closing : Token) : Option Lexer := do
  let l ← l.dropCandidate
  let l := match l.outer with
    | candidate :: outer => { l with candidate, outer }
    | [] => l
  return ((l.allowKeys false).skip 1).emit closing

/-- An indicator that opens a block collection, and after which a node may be a key. -/
def blockIndicator (l : Lexer) (opening indicator : Token) (allowedAfter : Bool) : Option Lexer :=
  if !l.inFlow && !l.keyAllowed then none
  else do
    let l ← (l.roll opening).dropCandidate
    return ((l.allowKeys allowedAfter).skip 1).emit indicator

def value (l : Lexer) : Option Lexer :=
  match l.candidate with
  | some k =>
    let opens := l.isDeeper k.position.column
    let l := if opens then l.openIndent k.position.column else l
    some ((({ l with candidate := none, confirmed := (k.mark, opens) :: l.confirmed }.allowKeys
      false).skip 1).emit .value)
  | none => l.blockIndicator .blockMappingStart .value (!l.inFlow)

/-- A node that takes up to `rest` on one line. -/
def node (l : Lexer) (t : Token) (rest : List Char) : Lexer :=
  ({ l with cursor := l.cursor.upTo rest }.allowKeys false).emit t

def name (l : Lexer) (token : String → Token) : Option Lexer := do
  let l ← l.noteCandidate
  let (name, rest) ← takeName (l.cursor.rest.drop 1)
  return l.node (token (String.ofList name)) rest

def tag (l : Lexer) : Option Lexer := do
  let l ← l.noteCandidate
  let (handle, suffix, rest) ← takeTag (l.cursor.rest.drop 1)
  if atGap rest || (l.inFlow && rest.head? = some ',') then return l.node (.tag handle suffix) rest
  else none

def scalar (l : Lexer) (style : Style) (text : List Char) (cursor : Cursor) (keyAllowed : Bool) :
    Lexer :=
  { l with cursor, keyAllowed }.emit (.scalar style (String.ofList text))

def quoted (l : Lexer) (double : Bool) : Option Lexer := do
  let l ← l.noteCandidate
  let (text, cursor) ← takeQuoted double l.cursor
  return l.scalar .quoted text cursor false

def block (l : Lexer) (folded : Bool) : Option Lexer := do
  let l ← l.dropCandidate
  let (text, cursor) ← takeBlock folded l.indent (l.cursor.skip 1)
  return l.scalar (.block folded) text cursor true

def plain (l : Lexer) : Option Lexer := do
  let l ← l.noteCandidate
  let (text, cursor, newLine) ← takePlain l.inFlow (l.indent + 1).toNat l.cursor
  return l.scalar .plain text cursor newLine

/-- A directive or a document mark closes all that is open. -/
def atMargin (l : Lexer) : Option Lexer := do
  let l ← (l.unroll (-1)).dropCandidate
  return l.allowKeys false

def directive (l : Lexer) : Option Lexer := do
  let l ← l.atMargin
  let (t, rest) ← takeDirective (l.cursor.rest.drop 1)
  return l.node t rest

def documentMark (l : Lexer) (t : Token) : Option Lexer := do
  let l ← l.atMargin
  return (l.skip 3).emit t

/-- Characters that a plain scalar cannot begin with. -/
def indicators : List Char :=
  ['-', '?', ':', ',', '[', ']', '{', '}', '#', '&', '*', '!', '|', '>', '\'', '"', '%', '@',
    Char.ofNat 0x60]

/-- Some of them can begin one before a character that is no gap. -/
def beginsPlain (inFlow : Bool) (c : Char) (rest : List Char) : Bool :=
  (!indicators.contains c && !isBlank c && !isBreak c) ||
    (c = '-' && !(rest.head?.any isBlank)) ||
    (!inFlow && (c = '?' || c = ':') && !atGap rest)

/-- Reads the token that begins with `c`. -/
def fetch (l : Lexer) (c : Char) (rest : List Char) : Option Lexer :=
  let gap := atGap rest
  if l.cursor.position.column = 0 && c = '%' then l.directive
  else if atDocumentMark l.cursor then
    l.documentMark (if c = '-' then .documentStart else .documentEnd)
  else if c = '[' then l.openFlow .flowSequenceStart
  else if c = '{' then l.openFlow .flowMappingStart
  else if c = ']' then l.closeFlow .flowSequenceEnd
  else if c = '}' then l.closeFlow .flowMappingEnd
  else if c = ',' then do
    let l ← l.dropCandidate
    return ((l.allowKeys true).skip 1).emit .flowSeparator
  else if c = '-' && gap then
    if l.inFlow then do
      let l ← l.dropCandidate
      return ((l.allowKeys true).skip 1).emit .blockItem
    else l.blockIndicator .blockSequenceStart .blockItem true
  else if c = '?' && gap then l.blockIndicator .blockMappingStart .key (!l.inFlow)
  else if c = ':' && (l.inFlow || gap) then l.value
  else if c = '*' then l.name .alias
  else if c = '&' then l.name .anchor
  else if c = '!' then l.tag
  else if c = '|' && !l.inFlow then l.block false
  else if c = '>' && !l.inFlow then l.block true
  else if c = '\'' then l.quoted false
  else if c = '"' then l.quoted true
  else if beginsPlain l.inFlow c rest then l.plain
  else none

/-- The end of the text closes all that is open. -/
def finish (l : Lexer) : Option Lexer := (l.unroll (-1)).dropCandidate

/-- Before a token: white space is dropped, old candidates are given up, and the block collections
that end here are closed. -/
def ready (l : Lexer) : Option Lexer :=
  l.toToken.expireAll.map fun l => l.unroll l.cursor.position.column

/-- Reads tokens until the text ends. Every token takes a character, so the length of the text
bounds their number. -/
def run : Nat → Lexer → Option Lexer
  | 0, l => l.ready.bind fun l => if l.cursor.rest.isEmpty then l.finish else none
  | n + 1, l =>
    l.ready.bind fun l =>
      match l.cursor.rest with
      | [] => l.finish
      | c :: rest => (l.fetch c rest).bind (run n)

/-- The tokens in order, with a key in place of each confirmed mark. -/
def tokens (l : Lexer) : List Token :=
  l.items.reverse.flatMap fun item =>
    match item with
    | .token t => [t]
    | .mark number =>
      match l.confirmed.lookup number with
      | some true => [.blockMappingStart, .key]
      | some false => [.key]
      | none => []

end Lexer

/-- A byte order mark takes up a column. -/
def dropByteOrderMark (c : Cursor) : Cursor :=
  if c.rest.head? = some '\ufeff' then c.skip 1 else c

def lex (s : String) : Option (List Token) :=
  let cs := s.toList
  if !cs.all isPrintable then none
  else
    (Lexer.run (cs.length + 1) (Lexer.start (dropByteOrderMark (.ofChars cs)))).map Lexer.tokens

end BasicBlocks.Yaml
