import BasicBlocks.Json.Document
import BasicBlocks.Json.Text

/-!
# JSON tokens in text

Cuts a text into tokens. Each function takes what it reads off the front and returns the rest;
white space between tokens is dropped.
-/

namespace BasicBlocks.Json

def isSpace (c : Char) : Bool := c = ' ' || c = '\n' || c = '\t' || c = '\r'

def isDigit (c : Char) : Bool := '0'.toNat ≤ c.toNat && c.toNat ≤ '9'.toNat

/-- The run up to the closing quote, which is dropped. A backslash keeps the character after it. -/
def takeRun : List Char → Option (List Char × List Char)
  | [] => none
  | '"' :: rest => some ([], rest)
  | '\\' :: c :: rest => (takeRun rest).map fun (run, rest) => ('\\' :: c :: run, rest)
  | c :: rest => (takeRun rest).map fun (run, rest) => (c :: run, rest)

/-- A text after its opening quote; its escapes have to be well formed. -/
def takeText (cs : List Char) : Option (Token × List Char) := do
  let (run, rest) ← takeRun cs
  let _ ← pieces? run
  return (.text (String.ofList run), rest)

/-- One digit or more. -/
def takeDigits (cs : List Char) : Option (List Char × List Char) :=
  let digits := cs.takeWhile isDigit
  if digits.isEmpty then none else some (digits, cs.dropWhile isDigit)

/-- Zero stands alone; other whole parts begin with no zero. -/
def takeWhole : List Char → Option (List Char × List Char)
  | '0' :: rest => some (['0'], rest)
  | cs => takeDigits cs

def takeFraction : List Char → Option (List Char × List Char)
  | '.' :: rest => (takeDigits rest).map fun (digits, rest) => ('.' :: digits, rest)
  | cs => some ([], cs)

def isExponentMark (c : Char) : Bool := c = 'e' || c = 'E'

def takeExponent : List Char → Option (List Char × List Char)
  | [] => some ([], [])
  | c :: rest =>
    if isExponentMark c then
      match rest with
      | '+' :: rest => (takeDigits rest).map fun (digits, rest) => (c :: '+' :: digits, rest)
      | '-' :: rest => (takeDigits rest).map fun (digits, rest) => (c :: '-' :: digits, rest)
      | rest => (takeDigits rest).map fun (digits, rest) => (c :: digits, rest)
    else some ([], c :: rest)

def takeSign : List Char → List Char × List Char
  | '-' :: rest => (['-'], rest)
  | cs => ([], cs)

def takeNumber (cs : List Char) : Option (Token × List Char) := do
  let (sign, rest) := takeSign cs
  let (whole, rest) ← takeWhole rest
  let (fraction, rest) ← takeFraction rest
  let (exponent, rest) ← takeExponent rest
  return (.number (String.ofList (sign ++ whole ++ fraction ++ exponent)), rest)

/-- The first token of a text that begins with `c`, which is no white space. -/
def takeToken (c : Char) (rest : List Char) : Option (Token × List Char) :=
  match c, rest with
  | '{', rest => some (.openBrace, rest)
  | '}', rest => some (.closeBrace, rest)
  | '[', rest => some (.openBracket, rest)
  | ']', rest => some (.closeBracket, rest)
  | ',', rest => some (.comma, rest)
  | ':', rest => some (.colon, rest)
  | '"', rest => takeText rest
  | 'n', 'u' :: 'l' :: 'l' :: rest => some (.null, rest)
  | 't', 'r' :: 'u' :: 'e' :: rest => some (.bool true, rest)
  | 'f', 'a' :: 'l' :: 's' :: 'e' :: rest => some (.bool false, rest)
  | c, rest => takeNumber (c :: rest)

/-- All tokens of a text, if every step reads one. Each step reads a character or more, so the
length of the text bounds their number. -/
def lexWithin : Nat → List Char → Option (List Token)
  | _, [] => some []
  | 0, _ :: _ => none
  | n + 1, c :: rest =>
    if isSpace c then lexWithin n rest
    else
      match takeToken c rest with
      | none => none
      | some (token, rest) => (lexWithin n rest).map (token :: ·)

def lex (s : String) : Option (List Token) :=
  let cs := s.toList
  lexWithin cs.length cs

end BasicBlocks.Json
