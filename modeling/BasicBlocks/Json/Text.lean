import BasicBlocks.Text.Numeral

/-!
# JSON texts

Between quotes, a text is a run of characters and escapes. Reading takes two steps: a run is cut
into characters and 16-bit units, and then every pair of surrogate units becomes a character; a
surrogate without its partner names none. Writing escapes quotes, backslashes and control
characters, and nothing else.
-/

namespace BasicBlocks.Json

/-- A piece of a text: a character, or a unit given by its number. -/
inductive Piece
  | char (c : Char)
  | unit (n : Nat)
  deriving DecidableEq, Repr

def quote : Char := '"'

def backslash : Char := '\\'

def isControl (c : Char) : Bool := c.toNat < 0x20

/-- Letters after a backslash, with the characters that they stand for. -/
def shortEscapes : List (Char × Char) :=
  [('"', '"'), ('\\', '\\'), ('/', '/'), ('b', '\x08'), ('f', '\x0c'), ('n', '\n'), ('r', '\r'),
    ('t', '\t')]

/-- Reads four hexadecimal digits. -/
def readUnit? : List Char → Option (Nat × List Char)
  | a :: b :: c :: d :: rest => (Numeral.read? 16 [a, b, c, d]).map (·, rest)
  | _ => none

/-- The pieces of a whole run. -/
def pieces? : List Char → Option (List Piece)
  | [] => some []
  | c :: rest =>
    if c = backslash then
      match rest with
      | [] => none
      | 'u' :: a :: b :: c :: d :: rest => do
        let n ← Numeral.read? 16 [a, b, c, d]
        return .unit n :: (← pieces? rest)
      | letter :: rest => do
        let meant ← shortEscapes.lookup letter
        return .char meant :: (← pieces? rest)
    else if c = quote || isControl c then none
    else (pieces? rest).map (.char c :: ·)
termination_by run => run.length

def isHighSurrogate (n : Nat) : Bool := 0xd800 ≤ n && n < 0xdc00

def isLowSurrogate (n : Nat) : Bool := 0xdc00 ≤ n && n < 0xe000

def joinSurrogates (high low : Nat) : Char :=
  Char.ofNat (0x10000 + (high - 0xd800) * 0x400 + (low - 0xdc00))

def assemble? : List Piece → Option (List Char)
  | [] => some []
  | .char c :: rest => (assemble? rest).map (c :: ·)
  | .unit high :: .unit low :: rest =>
    if isHighSurrogate high && isLowSurrogate low then
      (assemble? rest).map (joinSurrogates high low :: ·)
    else if isHighSurrogate high || isLowSurrogate high then none
    else (assemble? (.unit low :: rest)).map (Char.ofNat high :: ·)
  | .unit n :: rest =>
    if isHighSurrogate n || isLowSurrogate n then none
    else (assemble? rest).map (Char.ofNat n :: ·)
termination_by ps => ps.length

def unescapeChars? (run : List Char) : Option (List Char) := (pieces? run).bind assemble?

def unescape? (raw : String) : Option String := (unescapeChars? raw.toList).map String.ofList

def escapeChar (c : Char) : List Char :=
  if c = '"' then ['\\', '"']
  else if c = '\\' then ['\\', '\\']
  else if c = '\n' then ['\\', 'n']
  else if c = '\r' then ['\\', 'r']
  else if c = '\t' then ['\\', 't']
  else if c = '\x08' then ['\\', 'b']
  else if c = '\x0c' then ['\\', 'f']
  else if isControl c then
    ['\\', 'u', '0', '0', Numeral.digitChar (c.toNat / 16), Numeral.digitChar (c.toNat % 16)]
  else [c]

def escapeChars (cs : List Char) : List Char := cs.flatMap escapeChar

def escape (s : String) : String := String.ofList (escapeChars s.toList)

end BasicBlocks.Json
