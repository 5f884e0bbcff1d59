import BasicBlocks.Text.Numeral

/-!
# Timestamps

A moment as a date and a time of day, from the seconds since the beginning of 1970. Years are
counted in eras of four hundred, and begin in March, so that a leap day is the last of its year.
-/

namespace BasicBlocks.Timestamp

structure Date where
  year : Int
  month : Nat
  day : Nat
  deriving DecidableEq, Repr

/-- The days of four hundred years. -/
def eraDays : Nat := 146097

/-- The days from March of the year zero to the beginning of 1970. -/
def epochDays : Int := 719468

def dateOfDays (days : Int) : Date :=
  let shifted := days + epochDays
  let era := shifted.fdiv eraDays
  let day := (shifted.fmod eraDays).toNat
  let year := (day - day / 1460 + day / 36524 - day / 146096) / 365
  let dayOfYear := day - (365 * year + year / 4 - year / 100)
  let month := (5 * dayOfYear + 2) / 153
  let civilMonth := if month < 10 then month + 3 else month - 9
  { year := era * 400 + year + (if civilMonth ≤ 2 then 1 else 0)
    month := civilMonth
    day := dayOfYear - (153 * month + 2) / 5 + 1 }

def padded (width n : Nat) : String :=
  let digits := Numeral.decimal n
  String.ofList (List.replicate (width - digits.length) '0') ++ digits

/-- Date, time of day and offset, as in `2024-02-29T12:00:00.000000000+00:00`. -/
def text (seconds : Int) (nanoseconds : Nat) : String :=
  let date := dateOfDays (seconds.fdiv 86400)
  let second := (seconds.fmod 86400).toNat
  padded 4 date.year.toNat ++ "-" ++ padded 2 date.month ++ "-" ++ padded 2 date.day ++ "T"
    ++ padded 2 (second / 3600) ++ ":" ++ padded 2 (second / 60 % 60) ++ ":"
    ++ padded 2 (second % 60) ++ "." ++ padded 9 nanoseconds ++ "+00:00"

end BasicBlocks.Timestamp
