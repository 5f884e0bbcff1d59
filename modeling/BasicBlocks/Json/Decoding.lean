import BasicBlocks.Json.Number
import BasicBlocks.Json.Reader
import BasicBlocks.Table

/-!
# Decoding JSON

Readers for the shapes that values take in JSON. A structure is an object, whose unknown members
are ignored and whose known ones stand once, or an array of its fields in order. Arrays and objects
count the level at which they stand; too deep a value is refused, unless it is ignored.
-/

namespace BasicBlocks.Json

/-- The deepest level at which an array or object is read. -/
def maxLevel : Nat := 127

def asText? : Json → Option String
  | .text raw => unescape? raw
  | _ => none

def asBool? : Json → Option Bool
  | .bool b => some b
  | _ => none

def asWord? : Json → Option Word
  | .number literal => (Literal.ofString literal).word?
  | _ => none

def asFloat? : Json → Option Float
  | .number literal => (Literal.ofString literal).float?
  | _ => none

/-- Null where there is no value. -/
def asOptional? {α : Type} (read : Json → Option α) : Json → Option (Option α)
  | .null => some none
  | j => (read j).map some

def asList? {α : Type} (level : Nat) (read : Json → Option α) : Json → Option (List α)
  | .array elements => if level ≤ maxLevel then elements.mapM read else none
  | _ => none

/-- A key is a whole number as JSON writes it, without escapes. -/
def keyWord? (raw : String) : Option Word :=
  match takeWhole raw.toList with
  | some (digits, []) => Numeral.readWord? 10 digits
  | _ => none

def keyedValue? {α : Type} (read : Json → Option α) (m : String × Json) : Option (Word × α) := do
  let key ← keyWord? m.1
  let value ← read m.2
  return (key, value)

def asTable? {α : Type} (level : Nat) (read : Json → Option α) : Json → Option (Table α)
  | .object members =>
    if level ≤ maxLevel then (members.mapM (keyedValue? read)).map Table.ofList else none
  | _ => none

/-- Members under their names. -/
def namedMembers? (members : List (String × Json)) : Option (List (String × Json)) :=
  members.mapM fun m => (unescape? m.1).map (·, m.2)

/-- The only member of a name, if there is one; fails where there are several. -/
def member? (members : List (String × Json)) (name : String) : Option (Option Json) :=
  match members.filter (·.1 = name) with
  | [] => some none
  | [m] => some (some m.2)
  | _ => none

/-- The fields of a structure in the order of their names, each with its value if it is given. -/
def asFields? (level : Nat) (names : List String) : Json → Option (List (Option Json))
  | .object members =>
    if level ≤ maxLevel then do
      let named ← namedMembers? members
      names.mapM (member? named)
    else none
  | .array elements =>
    if level ≤ maxLevel && elements.length ≤ names.length then
      some (elements.map some ++ List.replicate (names.length - elements.length) none)
    else none
  | _ => none

/-- A case is its name, or an object of its name and null. -/
def asCase? {α : Type} (level : Nat) (cases : List (String × α)) : Json → Option α
  | .text raw => (unescape? raw).bind (cases.lookup ·)
  | .object [(raw, .null)] =>
    if level ≤ maxLevel then (unescape? raw).bind (cases.lookup ·) else none
  | _ => none

def ofText (s : String) : Json := .text (escape s)

def ofOptional {α : Type} (write : α → Json) : Option α → Json
  | none => .null
  | some a => write a

/-- Keys in ascending order as numbers. -/
def ofTable {α : Type} (write : α → Json) (t : Table α) : Json :=
  .object (t.entries.map fun e => (Numeral.decimal e.1.toNat, write e.2))

/-- A member put in the order of the names, over any member of the same name. -/
def insertMember (name : String) (value : Json) : List (String × Json) → List (String × Json)
  | [] => [(name, value)]
  | m :: rest =>
    if name < m.1 then (name, value) :: m :: rest
    else if name = m.1 then (name, value) :: rest
    else m :: insertMember name value rest

mutual

/-- Any value, with its members in order, its texts and numbers in their one form. -/
def canonical? (level : Nat) : Json → Option Json
  | .null => some .null
  | .bool b => some (.bool b)
  | .number literal => (canonicalLiteral? literal).map .number
  | .text raw => (unescape? raw).map ofText
  | .array elements =>
    if level ≤ maxLevel then (canonicalElements? (level + 1) elements).map .array else none
  | .object members =>
    if level ≤ maxLevel then
      (canonicalMembers? (level + 1) members).map fun named =>
        .object (((named.foldl (fun acc m => insertMember m.1 m.2 acc) []).map
          fun m => (escape m.1, m.2)))
    else none

def canonicalElements? (level : Nat) : List Json → Option (List Json)
  | [] => some []
  | first :: rest => do
    let first ← canonical? level first
    let rest ← canonicalElements? level rest
    return first :: rest

/-- The members under their names, in the given order. -/
def canonicalMembers? (level : Nat) : List (String × Json) → Option (List (String × Json))
  | [] => some []
  | (raw, value) :: rest => do
    let name ← unescape? raw
    let value ← canonical? level value
    let rest ← canonicalMembers? level rest
    return (name, value) :: rest

end

end BasicBlocks.Json
