import BasicBlocks.Decimal.Shortest
import BasicBlocks.Json.Lexer

/-!
# JSON numbers

What a number literal means. A literal without fraction and exponent is a whole number as long as
it fits 64 bits, and all others are doubles. A double is read from as many leading digits as a
word holds, scaled once by a power of ten; it is written with the fewest digits that read back,
always with a fraction or an exponent.
-/

namespace BasicBlocks.Json

structure Literal where
  negative : Bool
  whole : List Char
  fraction : List Char
  exponentNegative : Bool
  exponent : List Char
  deriving DecidableEq, Repr

def Literal.ofString (s : String) : Literal :=
  let (sign, rest) := takeSign s.toList
  let whole := rest.takeWhile isDigit
  let rest := rest.dropWhile isDigit
  let (fraction, rest) := match rest with
    | '.' :: rest => (rest.takeWhile isDigit, rest.dropWhile isDigit)
    | rest => ([], rest)
  let exponent := rest.drop 1
  { negative := !sign.isEmpty, whole, fraction, exponentNegative := exponent.head? = some '-'
    exponent := exponent.filter isDigit }

def Literal.isWhole (l : Literal) : Bool := l.fraction.isEmpty && l.exponent.isEmpty

def digitValue (c : Char) : Nat := c.toNat - '0'.toNat

/-- The digits that a word holds, and how many of the whole part are left over. -/
def absorbWhole (acc : Nat) : List Char → Nat × Nat
  | [] => (acc, 0)
  | c :: rest =>
    let next := acc * 10 + digitValue c
    if next < Word.bound then absorbWhole next rest else (acc, rest.length + 1)

/-- The digits that a word still holds, and how many of the fraction they are. -/
def absorbFraction (acc : Nat) : List Char → Nat × Nat
  | [] => (acc, 0)
  | c :: rest =>
    let next := acc * 10 + digitValue c
    if next < Word.bound then
      let (value, taken) := absorbFraction next rest
      (value, taken + 1)
    else (acc, 0)

/-- The greatest power of ten that is a double. -/
def maxTenPower : Nat := 308

def tenPower (n : Nat) : Float := Float.ofScientific 1 false n

/-- `x * 10 ^ exponent`, rounded at each step; nothing if it is not finite. -/
def scale? (x : Float) (exponent : Int) : Option Float :=
  if 0 ≤ exponent then
    if exponent ≤ maxTenPower then
      let y := x * tenPower exponent.toNat
      if y.isInf then none else some y
    else if x == 0 then some x
    else none
  else if -(maxTenPower : Int) ≤ exponent then some (x / tenPower (-exponent).toNat)
  else if x == 0 then some x
  else scale? (x / tenPower maxTenPower) (exponent + maxTenPower)
termination_by (-exponent).toNat
decreasing_by simp only [maxTenPower] at *; omega

/-- Exponents are kept within 32 bits. -/
def maxExponent : Nat := 0x7fffffff

def Literal.magnitude? (l : Literal) : Option Float :=
  let (value, leftOver) := absorbWhole 0 l.whole
  let (value, taken) := absorbFraction value l.fraction
  let significand := (UInt64.ofNat value).toFloat
  let start : Int := (leftOver : Int) - taken
  if l.fraction.isEmpty && l.exponent.isEmpty && leftOver = 0 then some significand
  else
    let exponent := (Numeral.readFrom 10 0 l.exponent).getD 0
    if exponent > maxExponent then
      if value ≠ 0 && !l.exponentNegative then none else some 0
    else
      let total := if l.exponentNegative then start - exponent else start + exponent
      scale? significand (max (-(maxExponent : Int) - 1) (min maxExponent total))

def Literal.float? (l : Literal) : Option Float :=
  l.magnitude?.map fun x => if l.negative then -x else x

/-- The word that a literal of digits alone denotes. -/
def Literal.word? (l : Literal) : Option Word :=
  if l.isWhole && !l.negative then Numeral.readWord? 10 l.whole else none

def zeros (n : Nat) : List Char := List.replicate n '0'

/-- The least and the greatest exponent that are written positionally. -/
def positionalExponents : Int × Int := (-5, 15)

/-- A positive decimal in positional notation, or with one digit before the point and an
exponent. -/
def writeDecimal (d : Decimal.Scaled) : List Char :=
  let digits := Numeral.writeChars 10 d.digits
  let exponent : Int := d.power + digits.length - 1
  if positionalExponents.1 ≤ exponent && exponent ≤ positionalExponents.2 then
    if 0 ≤ d.power then digits ++ zeros d.power.toNat ++ ['.', '0']
    else if 0 ≤ exponent then
      let whole := (exponent + 1).toNat
      digits.take whole ++ '.' :: digits.drop whole
    else '0' :: '.' :: zeros (-exponent - 1).toNat ++ digits
  else
    let fraction := digits.drop 1
    digits.take 1 ++ (if fraction.isEmpty then [] else '.' :: fraction) ++ 'e' ::
      (if exponent < 0 then '-' else '+') :: Numeral.writeChars 10 exponent.natAbs

/-- A finite double. -/
def writeFloat (x : Float) : String :=
  let bits := x.toBits.toNat
  let magnitude := bits % 0x8000000000000000
  let digits := if magnitude = 0 then ['0', '.', '0']
    else writeDecimal (Decimal.shortest (Decimal.Binary.ofBits magnitude))
  String.ofList (if bits = magnitude then digits else '-' :: digits)

def ofWord (w : Word) : Json := .number (Numeral.decimal w.toNat)

/-- There is no literal for what is not finite. -/
def ofFloat (x : Float) : Json := if x.isFinite then .number (writeFloat x) else .null

/-- The one literal for the same number: whole numbers that fit 64 bits, signed or not, keep their
digits. -/
def canonicalLiteral? (literal : String) : Option String :=
  let l := Literal.ofString literal
  match l.isWhole, l.negative, Numeral.readFrom 10 0 l.whole with
  | true, false, some n => if n < Word.bound then some (Numeral.decimal n) else float l
  | true, true, some n =>
    if 0 < n && n ≤ 0x8000000000000000 then some ("-" ++ Numeral.decimal n) else float l
  | _, _, _ => float l
where
  float (l : Literal) : Option String := l.float?.map writeFloat

end BasicBlocks.Json
