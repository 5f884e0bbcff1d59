import BasicBlocks.Word
import BasicBlocks.Yaml.Node

/-!
# Plain scalars

What a plain scalar is besides a text: nothing, a truth value or a number. Whole numbers are decimal
without leading zeros, or hexadecimal, octal or binary after their marks.
-/

namespace BasicBlocks.Yaml.Plain

def isNull (s : String) : Bool := ["null", "Null", "NULL", "~"].contains s

def bool? (s : String) : Option Bool :=
  if ["true", "True", "TRUE"].contains s then some true
  else if ["false", "False", "FALSE"].contains s then some false
  else none

def isSign (c : Char) : Bool := c = '+' || c = '-'

def dropSign (cs : List Char) : List Char := if cs.head?.any isSign then cs.drop 1 else cs

/-- More than one digit, the first a zero. -/
def hasLeadingZero (cs : List Char) : Bool :=
  match dropSign cs with
  | '0' :: c :: rest => (c :: rest).all Char.isDigit
  | _ => false

/-- The value of digits after a base's mark, or of decimal digits; no sign. -/
def magnitude? (cs : List Char) : Option Nat :=
  let marked := match cs with
    | '0' :: 'x' :: rest => Numeral.read? 16 rest
    | '0' :: 'o' :: rest => Numeral.read? 8 rest
    | '0' :: 'b' :: rest => Numeral.read? 2 rest
    | _ => none
  match marked with
  | some n => some n
  | none => if hasLeadingZero cs then none else Numeral.read? 10 cs

def integer? (s : String) : Option Int :=
  match s.toList with
  | '-' :: rest => (magnitude? rest).map fun n => -(n : Int)
  | '+' :: rest => (magnitude? rest).map Int.ofNat
  | rest => (magnitude? rest).map Int.ofNat

/-- A whole number that is a word. -/
def word? (s : String) : Option Word :=
  match integer? s with
  | some (.ofNat n) => if s.toList.head? = some '-' then none else Word.ofNat? n
  | _ => none

/-- Digits, perhaps with a point among them or at either end. -/
def takeMantissa (cs : List Char) : Option (List Char × Int × List Char) :=
  let whole := cs.takeWhile Char.isDigit
  let rest := cs.dropWhile Char.isDigit
  match rest with
  | '.' :: rest =>
    let fraction := rest.takeWhile Char.isDigit
    if whole.isEmpty && fraction.isEmpty then none
    else some (whole ++ fraction, -(fraction.length : Int), rest.dropWhile Char.isDigit)
  | rest => if whole.isEmpty then none else some (whole, 0, rest)

def takeExponent : List Char → Option Int
  | [] => some 0
  | c :: rest =>
    if c = 'e' || c = 'E' then
      match rest with
      | '-' :: digits => (Numeral.read? 10 digits).map fun n => -(n : Int)
      | '+' :: digits => (Numeral.read? 10 digits).map Int.ofNat
      | digits => (Numeral.read? 10 digits).map Int.ofNat
    else none

/-- The least number that is rounded to infinity. -/
def overflow : Nat := Nat.pow 2 1024 - Nat.pow 2 970

/-- Whether `digits * 10 ^ power` is finite as a double. -/
def isFinite (digits : List Char) (power : Int) : Bool :=
  let n := (Numeral.readFrom 10 0 digits).getD 0
  let size : Int := (Numeral.digits 10 n).length + power
  n = 0 || size < 309 || (size = 309 && n * Nat.pow 10 power.toNat < overflow * Nat.pow 10 (-power).toNat)

/-- A number with a fraction or an exponent, or one of the names for what is no number. -/
def isFloat (s : String) : Bool :=
  let cs := s.toList
  if [".inf", ".Inf", ".INF", "+.inf", "+.Inf", "+.INF", "-.inf", "-.Inf", "-.INF", ".nan", ".NaN",
      ".NAN"].contains s then true
  else if hasLeadingZero cs then false
  else
    match takeMantissa (dropSign cs) with
    | none => false
    | some (digits, power, rest) =>
      match takeExponent rest with
      | none => false
      | some exponent => isFinite digits (power + exponent)

/-- What a plain scalar is where any value may stand. -/
inductive Kind
  | null
  | bool
  | number
  /-- A whole number of more than 64 bits, and at most 128, is refused. -/
  | tooWide
  | text
  deriving DecidableEq, Repr

def isWide (i : Int) : Bool :=
  let half : Int := 0x8000000000000000
  (2 * half ≤ i && i < 4 * half * half) || (-2 * half * half ≤ i && i < -half)

def kind (s : String) : Kind :=
  if s.isEmpty || isNull s then .null
  else if (bool? s).isSome then .bool
  else
    match integer? s with
    | some i => if isWide i then .tooWide else .number
    | none => if isFloat s then .number else .text

end BasicBlocks.Yaml.Plain
