import Mathlib.Algebra.GroupWithZero.Nat
import Mathlib.Data.List.Forall2
import BasicBlocks.Image.Record

/-!
# Numbers in records

A number that fits its width is read back from its bytes, in either byte order, and every number
that is read fits its width. Records that are written one after the other are read one by one.
-/

namespace BasicBlocks.Image

open Utf8 (Bytes)

@[simp] theorem length_toLittle (width n : Nat) : (toLittle width n).length = width := by
  induction width generalizing n with
  | zero => rfl
  | succ width ih => simp [toLittle, ih]

theorem fromLittle_toLittle {width n : Nat} (fits : n < 256 ^ width) :
    fromLittle (toLittle width n) = n := by
  induction width generalizing n with
  | zero =>
    have zero : n = 0 := by simpa using fits
    rw [zero]
    rfl
  | succ width ih =>
    have rest : n / 256 < 256 ^ width := by
      rw [Nat.div_lt_iff_lt_mul (by decide), ← Nat.pow_succ]
      exact fits
    rw [toLittle, fromLittle, ih rest, UInt8.toNat_ofNat']
    omega

theorem fromLittle_lt (bytes : Bytes) : fromLittle bytes < 256 ^ bytes.length := by
  induction bytes with
  | nil => decide
  | cons b rest ih =>
    have digit : b.toNat < 256 := b.toNat_lt
    rw [fromLittle, List.length_cons, Nat.pow_succ]
    omega

namespace ByteOrder

@[simp] theorem length_bytes (o : ByteOrder) (width n : Nat) :
    (o.bytes width n).length = width := by
  cases o <;> simp [bytes]

theorem number_bytes (o : ByteOrder) {width n : Nat} (fits : n < 256 ^ width) :
    o.number (o.bytes width n) = n := by
  cases o <;> simp [number, bytes, fromLittle_toLittle fits]

theorem number_lt (o : ByteOrder) (bytes : Bytes) : o.number bytes < 256 ^ bytes.length := by
  cases o with
  | little => exact fromLittle_lt bytes
  | big => simpa [number] using fromLittle_lt bytes.reverse

end ByteOrder

theorem takeBytes_append (front rest : Bytes) :
    takeBytes front.length (front ++ rest) = some (front, rest) := by
  simp [takeBytes]

theorem takeBytes_append_of_length {n : Nat} {front : Bytes} (size : front.length = n)
    (rest : Bytes) : takeBytes n (front ++ rest) = some (front, rest) := by
  rw [← size]
  exact takeBytes_append front rest

theorem takeBytes_eq_some_iff {n : Nat} {bytes front rest : Bytes} :
    takeBytes n bytes = some (front, rest) ↔ bytes = front ++ rest ∧ front.length = n := by
  constructor
  · intro taken
    rw [takeBytes] at taken
    split at taken
    next full =>
      obtain ⟨rfl, rfl⟩ := Prod.mk.inj (Option.some.inj taken)
      exact ⟨(List.take_append_drop n bytes).symm, full⟩
    next => cases taken
  · rintro ⟨rfl, rfl⟩
    exact takeBytes_append front rest

/-- Numbers that fit the widths of their fields. -/
def Fit (widths numbers : List Nat) : Prop := List.Forall₂ (fun w n => n < 256 ^ w) widths numbers

instance (widths numbers : List Nat) : Decidable (Fit widths numbers) :=
  inferInstanceAs (Decidable (List.Forall₂ _ widths numbers))

/-- A record of these fields. -/
def writeRecord (o : ByteOrder) (widths numbers : List Nat) : Bytes :=
  writeNumbers o (widths.zip numbers)

theorem readNumbers_writeRecord (o : ByteOrder) {widths numbers : List Nat}
    (fit : Fit widths numbers) (rest : Bytes) :
    readNumbers o widths (writeRecord o widths numbers ++ rest) = some (numbers, rest) := by
  induction fit with
  | nil => rfl
  | @cons w n widths numbers fits _ ih =>
    have front : writeRecord o (w :: widths) (n :: numbers) =
        o.bytes w n ++ writeRecord o widths numbers := rfl
    have taken := takeBytes_append_of_length (o.length_bytes w n)
    rw [front, List.append_assoc, readNumbers, taken]
    simp [ih, o.number_bytes fits]

/-- What is read fits, and stands in front of what is left. -/
theorem fit_of_readNumbers {o : ByteOrder} {widths numbers : List Nat} {bytes rest : Bytes}
    (read : readNumbers o widths bytes = some (numbers, rest)) : Fit widths numbers := by
  induction widths generalizing bytes numbers rest with
  | nil =>
    obtain ⟨rfl, _⟩ := Prod.mk.inj (Option.some.inj read)
    exact .nil
  | cons w widths ih =>
    simp only [readNumbers, Option.bind_eq_bind, Option.bind_eq_some_iff] at read
    obtain ⟨⟨front, middle⟩, taken, ⟨later, last⟩, others, both⟩ := read
    obtain ⟨rfl, _⟩ := Prod.mk.inj (Option.some.inj both)
    obtain ⟨_, width⟩ := takeBytes_eq_some_iff.mp taken
    have fits := o.number_lt front
    rw [width] at fits
    exact .cons fits (ih others)

@[simp] theorem length_writeRecord (o : ByteOrder) {widths numbers : List Nat}
    (same : widths.length = numbers.length) :
    (writeRecord o widths numbers).length = widths.sum := by
  induction widths generalizing numbers with
  | nil => rfl
  | cons w widths ih =>
    obtain ⟨n, numbers, rfl⟩ := List.exists_cons_of_length_eq_add_one same.symm
    have front : writeRecord o (w :: widths) (n :: numbers) =
        o.bytes w n ++ writeRecord o widths numbers := rfl
    rw [front, List.length_append, ByteOrder.length_bytes, ih (by simpa using same), List.sum_cons]

/-- A number that stands at an offset is read there. -/
theorem readNumberAt_of_prefix {o : ByteOrder} {offset width n : Nat} {image : Bytes}
    (fits : n < 256 ^ width) (stands : o.bytes width n <+: image.drop offset) :
    readNumberAt o offset width image = some n := by
  obtain ⟨rest, split⟩ := stands
  have taken := takeBytes_append_of_length (o.length_bytes width n) rest
  rw [readNumberAt, ← split, taken]
  simp [o.number_bytes fits]

theorem readMany_flatMap {α β : Type} {reader : Bytes → Option (β × Bytes)} {write : α → Bytes}
    {meant : α → β} {as : List α}
    (each : ∀ a ∈ as, ∀ rest, reader (write a ++ rest) = some (meant a, rest)) (rest : Bytes) :
    readMany reader as.length (as.flatMap write ++ rest) = some (as.map meant, rest) := by
  induction as with
  | nil => rfl
  | cons a as ih =>
    obtain ⟨first, others⟩ := List.forall_mem_cons.mp each
    rw [List.length_cons, readMany, List.flatMap_cons, List.append_assoc, first]
    simp [ih others]

theorem length_flatMap_eq_mul {α : Type} {write : α → Bytes} {width : Nat} {as : List α}
    (each : ∀ a ∈ as, (write a).length = width) :
    (as.flatMap write).length = as.length * width := by
  induction as with
  | nil => simp
  | cons a as ih =>
    obtain ⟨first, others⟩ := List.forall_mem_cons.mp each
    rw [List.flatMap_cons, List.length_append, first, ih others, List.length_cons, Nat.add_one_mul]
    omega

end BasicBlocks.Image
