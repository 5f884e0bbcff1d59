/-!
# Tails

The end of a text that fits into so many bytes, cut between characters.
-/

namespace BasicBlocks.Tail

theorem ne_size_of_not_isValid {s : String} {offset : Nat}
    (inside : ¬ (⟨offset⟩ : String.Pos.Raw).isValid s = true) : offset ≠ s.utf8ByteSize := by
  rintro rfl
  exact inside (String.Pos.Raw.isValid_eq_true_iff.mpr String.Pos.Raw.isValid_rawEndPos)

/-- The first place from an offset on where no character is cut. The end of the text is one, so the
search goes on below it only. -/
def boundaryFrom (s : String) (offset : Nat) (within : offset ≤ s.utf8ByteSize) : s.Pos :=
  if clean : (⟨offset⟩ : String.Pos.Raw).isValid s then
    ⟨⟨offset⟩, String.Pos.Raw.isValid_eq_true_iff.mp clean⟩
  else boundaryFrom s (offset + 1) (Nat.lt_of_le_of_ne within (ne_size_of_not_isValid clean))
termination_by s.utf8ByteSize - offset
decreasing_by
  have := ne_size_of_not_isValid clean
  omega

/-- The longest end of a text that has at most so many bytes. -/
def tail (room : Nat) (s : String) : String :=
  if s.utf8ByteSize ≤ room then s
  else (s.sliceFrom (boundaryFrom s (s.utf8ByteSize - room) (Nat.sub_le _ _))).copy

end BasicBlocks.Tail
