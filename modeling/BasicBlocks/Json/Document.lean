import BasicBlocks.Text.Numeral

/-!
# JSON documents

A document is kept as written, less its white space: a number is its literal and a text is what
stands between its quotes, escapes and all. What they mean is asked only where a value is used, so
a part that nobody asks for may hold escapes that name no character, or numbers out of range.

A document is a run of tokens. The compact form writes them one after the other; the pretty form
puts every member and element on a line of its own, indented by two spaces a level.
-/

namespace BasicBlocks

inductive Json
  | null
  | bool (value : Bool)
  | number (literal : String)
  | text (raw : String)
  | array (elements : List Json)
  | object (members : List (String × Json))

namespace Json

inductive Token
  | openBrace
  | closeBrace
  | openBracket
  | closeBracket
  | comma
  | colon
  | null
  | bool (value : Bool)
  | number (literal : String)
  | text (raw : String)
  deriving DecidableEq, Repr

def Token.written : Token → String
  | .openBrace => "\x7b"
  | .closeBrace => "\x7d"
  | .openBracket => "["
  | .closeBracket => "]"
  | .comma => ","
  | .colon => ":"
  | .null => "null"
  | .bool true => "true"
  | .bool false => "false"
  | .number literal => literal
  | .text raw => "\"" ++ raw ++ "\""

mutual

def tokens : Json → List Token
  | .null => [.null]
  | .bool value => [.bool value]
  | .number literal => [.number literal]
  | .text raw => [.text raw]
  | .array [] => [.openBracket, .closeBracket]
  | .array (first :: rest) =>
    .openBracket :: tokens first ++ elementTokens rest ++ [.closeBracket]
  | .object [] => [.openBrace, .closeBrace]
  | .object ((key, value) :: rest) =>
    .openBrace :: .text key :: .colon :: tokens value ++ memberTokens rest ++ [.closeBrace]

/-- Elements after the first. -/
def elementTokens : List Json → List Token
  | [] => []
  | first :: rest => .comma :: tokens first ++ elementTokens rest

/-- Members after the first. -/
def memberTokens : List (String × Json) → List Token
  | [] => []
  | (key, value) :: rest =>
    .comma :: .text key :: .colon :: tokens value ++ memberTokens rest

end

def compact (j : Json) : String := String.join (j.tokens.map Token.written)

/-- A new line at a level of nesting. -/
def newLine (level : Nat) : String := "\n" ++ String.ofList (List.replicate (2 * level) ' ')

mutual

def prettyAt (level : Nat) : Json → String
  | .array (first :: rest) =>
    "[" ++ newLine (level + 1) ++ prettyAt (level + 1) first ++ prettyElements (level + 1) rest
      ++ newLine level ++ "]"
  | .object ((key, value) :: rest) =>
    "\x7b" ++ newLine (level + 1) ++ "\"" ++ key ++ "\": " ++ prettyAt (level + 1) value
      ++ prettyMembers (level + 1) rest ++ newLine level ++ "\x7d"
  | .array [] => "[]"
  | .object [] => "\x7b\x7d"
  | .null => "null"
  | .bool true => "true"
  | .bool false => "false"
  | .number literal => literal
  | .text raw => "\"" ++ raw ++ "\""

def prettyElements (level : Nat) : List Json → String
  | [] => ""
  | first :: rest => "," ++ newLine level ++ prettyAt level first ++ prettyElements level rest

def prettyMembers (level : Nat) : List (String × Json) → String
  | [] => ""
  | (key, value) :: rest =>
    "," ++ newLine level ++ "\"" ++ key ++ "\": " ++ prettyAt level value
      ++ prettyMembers level rest

end

def pretty (j : Json) : String := prettyAt 0 j

end Json
end BasicBlocks
