import BasicBlocks.Proofs.Records
import BasicBlocks.Proofs.Utf8

/-!
# Names in fields

A name that has no zero character is read back from its bytes if a zero byte, or nothing, comes
behind them. So it is read from a field of fixed width, where zero bytes fill what it leaves free.
-/

namespace BasicBlocks.Image

open Utf8 (Bytes)

theorem zero_not_mem_encode {name : String} (h : '\x00' ∉ name.toList) :
    (0 : UInt8) ∉ Utf8.encode name := by
  intro zero
  obtain ⟨c, hc, within⟩ := List.mem_flatMap.mp zero
  have null : c = Char.ofNat (0 : UInt8).toNat := Utf8.eq_of_mem_encodeChar within (by decide)
  rw [null] at hc
  exact h hc

theorem nameOf_encode_append {name : String} {after : Bytes} (noZero : '\x00' ∉ name.toList)
    (stop : ∀ b ∈ after.head?, b = 0) : nameOf (Utf8.encode name ++ after) = name := by
  have inName : ∀ b ∈ Utf8.encode name, (b != 0) = true := by
    intro b hb
    have nonzero : b ≠ 0 := fun zero => zero_not_mem_encode noZero (zero ▸ hb)
    simpa using nonzero
  have stops : after.takeWhile (· != 0) = [] := by
    cases after with
    | nil => rfl
    | cons b rest => simp [stop b rfl]
  have decoded : Utf8.decode? (Utf8.encode name) = some name := by
    rw [Utf8.decode?, Utf8.decode_eq_ok_iff.mpr rfl]
    rfl
  rw [nameOf, upToZero, List.takeWhile_append_of_pos inName, stops, List.append_nil, decoded]
  rfl

/-- A name with zero bytes behind it, as many as the width leaves free. -/
def padded (width : Nat) (name : String) : Bytes :=
  Utf8.encode name ++ List.replicate (width - (Utf8.encode name).length) 0

/-- A name that has a field of its own. -/
structure FitsField (width : Nat) (name : String) : Prop where
  noZero : '\x00' ∉ name.toList
  short : (Utf8.encode name).length ≤ width

theorem FitsField.length_padded {width : Nat} {name : String} (fits : FitsField width name) :
    (padded width name).length = width := by
  have short := fits.short
  rw [padded, List.length_append, List.length_replicate]
  omega

theorem FitsField.nameOf_padded {width : Nat} {name : String} (fits : FitsField width name) :
    nameOf (padded width name) = name := by
  refine nameOf_encode_append fits.noZero fun b hb => ?_
  exact (List.mem_replicate.mp (List.mem_of_head? hb)).2

end BasicBlocks.Image
