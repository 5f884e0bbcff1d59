import BasicBlocks.Text.Numeral

/-!
# Shortest decimals

The decimal with the fewest digits among those that are nearer to a binary number than to its
neighbours; of several the nearest one, and of two as near the one with an even last digit. All of
it is exact arithmetic on naturals: the number and the ends of its interval are numerators over one
denominator.
-/

namespace BasicBlocks.Decimal

/-- `significand * 2 ^ exponent`, with the distance to the neighbour below halved where the
significand is the least of its exponent. -/
structure Binary where
  significand : Nat
  exponent : Int
  narrowBelow : Bool
  deriving DecidableEq, Repr

/-- A finite number that is not zero, from the bits of a double without its sign. -/
def Binary.ofBits (bits : Nat) : Binary :=
  let hidden := Nat.pow 2 52
  let biased : Nat := bits / hidden
  let fraction := bits % hidden
  if biased = 0 then ⟨fraction, -1074, false⟩
  else ⟨hidden + fraction, (biased : Int) - 1075, fraction = 0 && biased > 1⟩

/-- The numbers that are read back as one binary number, over a common denominator. -/
structure Interval where
  low : Nat
  middle : Nat
  high : Nat
  denominator : Nat
  closed : Bool
  deriving DecidableEq, Repr

def Binary.interval (b : Binary) : Interval :=
  let scale := Nat.pow 2 (b.exponent - 2).toNat
  { low := (4 * b.significand - if b.narrowBelow then 1 else 2) * scale
    middle := 4 * b.significand * scale
    high := (4 * b.significand + 2) * scale
    denominator := Nat.pow 2 (2 - b.exponent).toNat
    closed := b.significand % 2 = 0 }

namespace Interval

/-- The same interval in units of `10 ^ power`. -/
def inUnits (i : Interval) (power : Int) : Interval :=
  let up := Nat.pow 10 (-power).toNat
  { i with
    low := i.low * up, middle := i.middle * up, high := i.high * up
    denominator := i.denominator * Nat.pow 10 power.toNat }

def admits (i : Interval) (n : Nat) : Bool :=
  let x := n * i.denominator
  if i.closed then i.low ≤ x && x ≤ i.high else i.low < x && x < i.high

/-- The whole number in the interval that is nearest to its middle, if there is one. -/
def nearest? (i : Interval) : Option Nat :=
  let below := i.middle / i.denominator
  let above := below + 1
  match i.admits below, i.admits above with
  | false, false => none
  | true, false => some below
  | false, true => some above
  | true, true =>
    let toBelow := i.middle - below * i.denominator
    let toAbove := above * i.denominator - i.middle
    if toBelow < toAbove || (toBelow = toAbove && below % 2 = 0) then some below else some above

/-- The power of ten that the middle's leading digit stands for. -/
def leadingPower (i : Interval) : Int :=
  if i.denominator ≤ i.middle then
    ((Numeral.digits 10 (i.middle / i.denominator)).length : Int) - 1
  else
    -(((List.range 400).find? fun k => i.denominator ≤ i.middle * Nat.pow 10 (k + 1)).getD 0 + 1 : Nat)

end Interval

/-- `digits * 10 ^ power`. -/
structure Scaled where
  digits : Nat
  power : Int
  deriving DecidableEq, Repr

/-- Without zeros at the end. -/
def Scaled.strip : Nat → Scaled → Scaled
  | 0, d => d
  | fuel + 1, d =>
    if d.digits ≠ 0 && d.digits % 10 = 0 then strip fuel ⟨d.digits / 10, d.power + 1⟩ else d

def shortest (b : Binary) : Scaled :=
  let i := b.interval
  let lead := i.leadingPower
  let found := (List.range 17).findSome? fun (n : Nat) =>
    let power := lead - n
    ((i.inUnits power).nearest?).map fun digits => (⟨digits, power⟩ : Scaled)
  (found.getD ⟨b.significand, 0⟩).strip 400

end BasicBlocks.Decimal
