/-!
# YAML characters

The classes of characters that YAML distinguishes, and places in a text. Lines and columns count
from zero; a carriage return with its line feed is one line break.
-/

namespace BasicBlocks.Yaml

/-- Characters that may stand in a document at all. -/
def isPrintable (c : Char) : Bool :=
  let n := c.toNat
  n = 0x09 || n = 0x0a || n = 0x0d || (0x20 ≤ n && n ≤ 0x7e) || n = 0x85 ||
    (0xa0 ≤ n && n ≤ 0xd7ff) || (0xe000 ≤ n && n ≤ 0xfffd) || 0x10000 ≤ n

def isBreak (c : Char) : Bool :=
  let n := c.toNat
  n = 0x0a || n = 0x0d || n = 0x85 || n = 0x2028 || n = 0x2029

def isBlank (c : Char) : Bool := c = ' ' || c = '\t'

/-- A blank, a line break or the end. -/
def atGap : List Char → Bool
  | [] => true
  | c :: _ => isBlank c || isBreak c

/-- A line break or the end. -/
def atLineEnd : List Char → Bool
  | [] => true
  | c :: _ => isBreak c

/-- Letters, digits, hyphens and underscores make up names. -/
def isWord (c : Char) : Bool := c.isAlphanum || c = '-' || c = '_'

/-- The indicators that end a scalar inside a flow collection. -/
def isFlowIndicator (c : Char) : Bool :=
  c = ',' || c = '[' || c = ']' || c = '{' || c = '}'

structure Position where
  index : Nat
  line : Nat
  column : Nat
  deriving DecidableEq, Repr

namespace Position

def start : Position := ⟨0, 0, 0⟩

def next (p : Position) : Position := ⟨p.index + 1, p.line, p.column + 1⟩

/-- After a line break of so many characters. -/
def newLine (p : Position) (width : Nat) : Position := ⟨p.index + width, p.line + 1, 0⟩

end Position

/-- What is left of a text, and where it begins. -/
structure Cursor where
  rest : List Char
  position : Position
  deriving DecidableEq, Repr

namespace Cursor

def ofChars (cs : List Char) : Cursor := ⟨cs, .start⟩

/-- Past so many characters that are no line breaks. -/
def skip (c : Cursor) : Nat → Cursor
  | 0 => c
  | n + 1 => skip ⟨c.rest.drop 1, c.position.next⟩ n

/-- Past characters up to `rest`, which is a later part of what is left, all on one line. -/
def upTo (c : Cursor) (rest : List Char) : Cursor :=
  let width := c.rest.length - rest.length
  ⟨rest, ⟨c.position.index + width, c.position.line, c.position.column + width⟩⟩

end Cursor

/-- The line break at the front, in the form in which it counts as content. -/
def takeBreak? (c : Cursor) : Option (Char × Cursor) :=
  match c.rest with
  | '\r' :: '\n' :: rest => some ('\n', ⟨rest, c.position.newLine 2⟩)
  | b :: rest =>
    if isBreak b then
      some (if b.toNat < 0x2000 then '\n' else b, ⟨rest, c.position.newLine 1⟩)
    else none
  | [] => none

/-- Three dashes or three dots at the start of a line, with a gap after them. -/
def atDocumentMark (c : Cursor) : Bool :=
  c.position.column = 0 &&
    match c.rest with
    | '-' :: '-' :: '-' :: rest => atGap rest
    | '.' :: '.' :: '.' :: rest => atGap rest
    | _ => false

end BasicBlocks.Yaml
