import BasicBlocks.Text.Numeral

/-!
# Shell arithmetic

Expressions over whole numbers. Division goes toward zero, and a comparison is one or zero.
-/

namespace BasicBlocks.Shell.Arithmetic

/-- Operators from the loosest to the tightest; a longer one stands before its beginning. -/
def levels : List (List String) :=
  [["||"], ["&&"], ["==", "!="], ["<=", ">=", "<", ">"], ["<<", ">>"], ["+", "-"],
    ["*", "/", "%"]]

def ofBool (b : Bool) : Int := if b then 1 else 0

def operate? (operator : String) (a b : Int) : Option Int :=
  match operator with
  | "||" => some (ofBool (a ≠ 0 || b ≠ 0))
  | "&&" => some (ofBool (a ≠ 0 && b ≠ 0))
  | "==" => some (ofBool (a = b))
  | "!=" => some (ofBool (a ≠ b))
  | "<=" => some (ofBool (a ≤ b))
  | ">=" => some (ofBool (b ≤ a))
  | "<" => some (ofBool (a < b))
  | ">" => some (ofBool (b < a))
  | "<<" => some (a * Nat.pow 2 (b.toNat % 64))
  | ">>" => some (a.fdiv (Nat.pow 2 (b.toNat % 64)))
  | "+" => some (a + b)
  | "-" => some (a - b)
  | "*" => some (a * b)
  | "/" => if b = 0 then none else some (a.tdiv b)
  | "%" => if b = 0 then none else some (a.tmod b)
  | _ => none

def skip (cs : List Char) : List Char := cs.dropWhile Char.isWhitespace

def integer? (cs : List Char) : Option Int :=
  match cs with
  | '-' :: rest => (Numeral.read? 10 rest).map fun n => -(n : Int)
  | '+' :: rest => (Numeral.read? 10 rest).map Int.ofNat
  | rest => (Numeral.read? 10 rest).map Int.ofNat

def isNameChar (c : Char) : Bool := c.isAlphanum || c = '_'

mutual

def operand (look : String → Int) : Nat → List Char → Option (Int × List Char)
  | 0, _ => none
  | n + 1, cs =>
    match skip cs with
    | '(' :: rest => do
      let (value, rest) ← level look levels n rest
      match skip rest with
      | ')' :: rest => some (value, rest)
      | _ => none
    | '-' :: rest => (operand look n rest).map fun r => (-r.1, r.2)
    | '+' :: rest => operand look n rest
    | '!' :: rest => (operand look n rest).map fun r => (ofBool (r.1 = 0), r.2)
    | rest =>
      let word := rest.takeWhile isNameChar
      match word with
      | [] => none
      | c :: _ =>
        let value := if c.isDigit then integer? word else some (look (String.ofList word))
        value.map (·, rest.drop word.length)

def level (look : String → Int) (table : List (List String)) :
    Nat → List Char → Option (Int × List Char)
  | 0, _ => none
  | n + 1, cs =>
    match table with
    | [] => operand look n cs
    | operators :: tighter => do
      let (first, rest) ← level look tighter n cs
      levelFrom look operators tighter n first rest

def levelFrom (look : String → Int) (operators : List String) (tighter : List (List String)) :
    Nat → Int → List Char → Option (Int × List Char)
  | 0, _, _ => none
  | n + 1, first, cs =>
    let rest := skip cs
    match operators.find? (·.toList.isPrefixOf rest) with
    | none => some (first, rest)
    | some operator => do
      let (second, rest) ← level look tighter n (rest.drop operator.length)
      levelFrom look operators tighter n (← operate? operator first second) rest

end

/-- The value of an expression; a name that stands for no number stands for zero. -/
def value? (look : String → Option String) (expression : String) : Option Int :=
  let cs := expression.toList
  let number (name : String) : Int := ((look name).bind (integer? ·.toList)).getD 0
  match level number levels (10 * cs.length + 10) cs with
  | some (value, rest) => if (skip rest).isEmpty then some value else none
  | none => if (skip cs).isEmpty then some 0 else none

end BasicBlocks.Shell.Arithmetic
