import BasicBlocks.Text.Utf8

/-!
# Binary records

Unsigned numbers of a given width in either byte order, and records that are runs of such numbers.
Reading takes a record off the front of a byte list, or fails where the list is too short.
-/

namespace BasicBlocks.Image

open Utf8 (Bytes)

inductive ByteOrder
  | little
  | big
  deriving DecidableEq, Repr

/-- The number whose least significant byte comes first. -/
def fromLittle : Bytes → Nat
  | [] => 0
  | b :: rest => b.toNat + 256 * fromLittle rest

def toLittle : Nat → Nat → Bytes
  | 0, _ => []
  | width + 1, n => UInt8.ofNat n :: toLittle width (n / 256)

namespace ByteOrder

def number (o : ByteOrder) (bytes : Bytes) : Nat :=
  match o with
  | .little => fromLittle bytes
  | .big => fromLittle bytes.reverse

def bytes (o : ByteOrder) (width n : Nat) : Bytes :=
  match o with
  | .little => toLittle width n
  | .big => (toLittle width n).reverse

end ByteOrder

/-- The first `n` bytes and the rest. -/
def takeBytes (n : Nat) (bytes : Bytes) : Option (Bytes × Bytes) :=
  let front := bytes.take n
  if front.length = n then some (front, bytes.drop n) else none

/-- One number for each width, and the bytes after the last. -/
def readNumbers (o : ByteOrder) : List Nat → Bytes → Option (List Nat × Bytes)
  | [], bytes => some ([], bytes)
  | width :: widths, bytes => do
    let (front, rest) ← takeBytes width bytes
    let (numbers, rest) ← readNumbers o widths rest
    return (o.number front :: numbers, rest)

/-- Numbers with their widths, one after the other. -/
def writeNumbers (o : ByteOrder) (numbers : List (Nat × Nat)) : Bytes :=
  numbers.flatMap fun n => o.bytes n.1 n.2

def readNumberAt (o : ByteOrder) (offset width : Nat) (image : Bytes) : Option Nat := do
  let (front, _) ← takeBytes width (image.drop offset)
  return o.number front

/-- Whether `size` bytes from `offset` on lie inside the image. -/
def inside (offset size : Nat) (image : Bytes) : Bool := offset + size ≤ image.length

/-- As many records as asked for, each read from where the one before it ended. -/
def readMany {α : Type} (reader : Bytes → Option (α × Bytes)) : Nat → Bytes → Option (List α × Bytes)
  | 0, bytes => some ([], bytes)
  | n + 1, bytes => do
    let (first, rest) ← reader bytes
    let (later, rest) ← readMany reader n rest
    return (first :: later, rest)

/-- The bytes before the first zero byte. -/
def upToZero (bytes : Bytes) : Bytes := bytes.takeWhile (· != 0)

/-- The text before the first zero byte; what is no text counts as empty. -/
def nameOf (bytes : Bytes) : String := (Utf8.decode? (upToZero bytes)).getD ""

end BasicBlocks.Image
