import BasicBlocks.Text.Utf8

/-!
# Records

A fact table is cut into records at line feeds and carriage returns, each a terminator of its own,
and a record into fields at tabs. Runs of terminators between records hold no record. A record is
placed where the reader stands when it turns to it: before the terminators that precede the
record, not at its first byte.
-/

namespace BasicBlocks.Facts

open Utf8 (Bytes)

def lineFeed : UInt8 := 0x0a

def carriageReturn : UInt8 := 0x0d

def tab : UInt8 := 0x09

def isTerminator (b : UInt8) : Bool := b == lineFeed || b == carriageReturn

def byteOrderMark : Bytes := [0xef, 0xbb, 0xbf]

/-- How far a reader has come: the bytes and the line feeds it has consumed. -/
structure Place where
  byte : Nat
  lineFeeds : Nat
  deriving DecidableEq, Repr

namespace Place

def start : Place := ⟨0, 0⟩

def after (p : Place) (consumed : Bytes) : Place :=
  ⟨p.byte + consumed.length, p.lineFeeds + consumed.count lineFeed⟩

/-- Lines count from one. -/
def line (p : Place) : Nat := p.lineFeeds + 1

end Place

structure Record where
  number : Nat
  place : Place
  content : Bytes
  deriving DecidableEq, Repr

/-- The records of what is left to read. The mark is consumed with the first record. -/
def recordsFrom (number : Nat) (place : Place) (mark rest : Bytes) : List Record :=
  let blank := rest.takeWhile isTerminator
  let body := rest.dropWhile isTerminator
  if body.isEmpty then []
  else
    let content := body.takeWhile (!isTerminator ·)
    let ending := body.dropWhile (!isTerminator ·)
    ⟨number, place, content⟩ ::
      recordsFrom (number + 1) (place.after (mark ++ blank ++ content ++ ending.take 1)) []
        (ending.drop 1)
termination_by rest.length
decreasing_by
  rename_i nonempty
  have hbody : (rest.dropWhile isTerminator).length ≤ rest.length :=
    (List.dropWhile_suffix isTerminator).length_le
  cases hb : rest.dropWhile isTerminator with
  | nil => simp [body, hb] at nonempty
  | cons b bs =>
    have hterm : isTerminator b = false := by
      have := List.head?_dropWhile_not isTerminator rest
      simp [hb] at this
      exact this
    have := (List.dropWhile_suffix (l := bs) (!isTerminator ·)).length_le
    rw [hb] at hbody
    simp only [List.length_cons] at hbody
    simp only [List.dropWhile_cons, hterm, Bool.not_false, if_true, List.length_drop]
    omega

/-- A byte order mark at the very start belongs to no record. -/
def records (bytes : Bytes) : List Record :=
  if byteOrderMark.isPrefixOf bytes then recordsFrom 0 .start byteOrderMark (bytes.drop 3)
  else recordsFrom 0 .start [] bytes

/-- The pieces between separators; there is one more of them than separators. -/
def splitAt {α : Type} [DecidableEq α] (separator : α) : List α → List (List α)
  | [] => [[]]
  | x :: xs =>
    if x = separator then [] :: splitAt separator xs
    else
      match splitAt separator xs with
      | [] => [[x]]
      | piece :: pieces => (x :: piece) :: pieces

namespace Record

def fields (r : Record) : List Bytes := splitAt tab r.content

/-- The fields as texts; or, of the first that is none, its number and how much of it is well
formed. -/
def decodeFields : Nat → List Bytes → Except (Nat × Nat) (List String)
  | _, [] => .ok []
  | number, field :: rest =>
    match Utf8.decode field with
    | .error valid => .error (number, valid)
    | .ok text =>
      match decodeFields (number + 1) rest with
      | .error fault => .error fault
      | .ok texts => .ok (text :: texts)

def texts (r : Record) : Except (Nat × Nat) (List String) := decodeFields 0 r.fields

end Record
end BasicBlocks.Facts
