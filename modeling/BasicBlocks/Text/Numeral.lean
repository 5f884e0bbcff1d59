import BasicBlocks.Word

/-!
# Numerals

Positional numerals in bases up to sixteen. Writing gives the digits without leading zeros;
reading takes any number of leading zeros and, where a sign is admitted, one plus sign.
-/

namespace BasicBlocks.Numeral

/-- Digits above nine are small letters. -/
def digitChar (d : Nat) : Char :=
  if d < 10 then Char.ofNat ('0'.toNat + d) else Char.ofNat ('a'.toNat + (d - 10))

/-- Letters of either case are read. -/
def digit? (base : Nat) (c : Char) : Option Nat :=
  let n := c.toNat
  let value :=
    if '0'.toNat ≤ n && n ≤ '9'.toNat then some (n - '0'.toNat)
    else if 'a'.toNat ≤ n && n ≤ 'f'.toNat then some (n - 'a'.toNat + 10)
    else if 'A'.toNat ≤ n && n ≤ 'F'.toNat then some (n - 'A'.toNat + 10)
    else none
  value.filter (· < base)

/-- The digits of `n`, most significant first. -/
def digits (base n : Nat) : List Nat :=
  if _ : n < base ∨ base < 2 then [n]
  else digits base (n / base) ++ [n % base]
termination_by n
decreasing_by exact Nat.div_lt_self (by omega) (by omega)

def writeChars (base n : Nat) : List Char := (digits base n).map digitChar

def decimal (n : Nat) : String := String.ofList (writeChars 10 n)

def hexadecimal (n : Nat) : String := String.ofList (writeChars 16 n)

def intDecimal : Int → String
  | .ofNat n => decimal n
  | .negSucc n => "-" ++ decimal (n + 1)

/-- The value of `cs`, every character a digit, read on from `acc`. -/
def readFrom (base : Nat) (acc : Nat) : List Char → Option Nat
  | [] => some acc
  | c :: cs =>
    match digit? base c with
    | none => none
    | some d => readFrom base (acc * base + d) cs

/-- One digit or more. -/
def read? (base : Nat) (cs : List Char) : Option Nat :=
  if cs.isEmpty then none else readFrom base 0 cs

def dropPlus : List Char → List Char
  | '+' :: cs => cs
  | cs => cs

/-- A word in the given base, after an optional plus sign. -/
def readWord? (base : Nat) (cs : List Char) : Option Word :=
  (read? base (dropPlus cs)).bind Word.ofNat?

/-- A word in decimal, or in hexadecimal after `0x` or `0X`. -/
def readPrefixedWord? : List Char → Option Word
  | '0' :: 'x' :: cs => readWord? 16 cs
  | '0' :: 'X' :: cs => readWord? 16 cs
  | cs => readWord? 10 cs

end BasicBlocks.Numeral
