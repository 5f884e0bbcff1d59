import BasicBlocks.Json.Lexer

/-!
# Reading JSON

A document is put together token by token. The state holds what the next token may be, and the
arrays and objects that are still open, innermost first.
-/

namespace BasicBlocks.Json

/-- An open array or object, with what it holds so far, last first. -/
inductive Open
  | array (elements : List Json)
  /-- The value of `name` is being read. -/
  | object (members : List (String × Json)) (name : String)

inductive State
  | value (outer : List Open)
  | firstElement (outer : List Open)
  | firstKey (outer : List Open)
  | key (members : List (String × Json)) (outer : List Open)
  | colon (members : List (String × Json)) (name : String) (outer : List Open)
  | complete (value : Json) (outer : List Open)

/-- The state after the first token of a value. -/
def beginValue (outer : List Open) : Token → Option State
  | .null => some (.complete .null outer)
  | .bool value => some (.complete (.bool value) outer)
  | .number literal => some (.complete (.number literal) outer)
  | .text raw => some (.complete (.text raw) outer)
  | .openBracket => some (.firstElement outer)
  | .openBrace => some (.firstKey outer)
  | _ => none

def step : State → Token → Option State
  | .value outer, t => beginValue outer t
  | .firstElement outer, .closeBracket => some (.complete (.array []) outer)
  | .firstElement outer, t => beginValue (.array [] :: outer) t
  | .firstKey outer, .closeBrace => some (.complete (.object []) outer)
  | .firstKey outer, .text raw => some (.colon [] raw outer)
  | .key members outer, .text raw => some (.colon members raw outer)
  | .colon members name outer, .colon => some (.value (.object members name :: outer))
  | .complete value (.array elements :: outer), .comma =>
    some (.value (.array (value :: elements) :: outer))
  | .complete value (.array elements :: outer), .closeBracket =>
    some (.complete (.array (value :: elements).reverse) outer)
  | .complete value (.object members name :: outer), .comma =>
    some (.key ((name, value) :: members) outer)
  | .complete value (.object members name :: outer), .closeBrace =>
    some (.complete (.object ((name, value) :: members).reverse) outer)
  | _, _ => none

def run : State → List Token → Option State
  | s, [] => some s
  | s, t :: ts =>
    match step s t with
    | none => none
    | some s => run s ts

def ofTokens? (ts : List Token) : Option Json :=
  match run (.value []) ts with
  | some (.complete value []) => some value
  | _ => none

/-- The document that a text holds, with nothing but white space around it. -/
def read? (s : String) : Option Json := (lex s).bind ofTokens?

end BasicBlocks.Json
