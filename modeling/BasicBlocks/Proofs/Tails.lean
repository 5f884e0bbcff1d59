import BasicBlocks.Text.Tail

/-!
# The longest end that fits

A text is cut between characters where it is two texts one after the other. The search for such a
place comes to the first one from its start on. The character before that place begins before the
start of the search, so the search is at most three bytes long, and the end of the text, which is
such a place itself, is never passed. A tail is the end of the text from there on, so an end that is
longer does not fit.
-/

namespace BasicBlocks.Tail

/-- An offset at which a text can be cut: no character begins before it and ends behind it. -/
def IsBoundary (s : String) (offset : Nat) : Prop :=
  ∃ front rest : String, s = front ++ rest ∧ front.utf8ByteSize = offset

theorem isBoundary_iff {s : String} {offset : Nat} :
    IsBoundary s offset ↔ (⟨offset⟩ : String.Pos.Raw).isValid s = true := by
  rw [String.Pos.Raw.isValid_eq_true_iff, String.Pos.Raw.isValid_iff_exists_append, IsBoundary]
  simp only [String.Pos.Raw.ext_iff, String.byteIdx_rawEndPos, eq_comm]

/-- Where the search ends. -/
def stopsAt (s : String) (offset : Nat) (within : offset ≤ s.utf8ByteSize) : Nat :=
  (boundaryFrom s offset within).offset.byteIdx

section

variable {s : String} {offset : Nat} (within : offset ≤ s.utf8ByteSize)

theorem isBoundary_stopsAt : IsBoundary s (stopsAt s offset within) :=
  isBoundary_iff.mpr (String.Pos.Raw.isValid_eq_true_iff.mpr (boundaryFrom s offset within).isValid)

/-- A search does not go back. -/
theorem le_stopsAt : offset ≤ stopsAt s offset within := by
  unfold stopsAt
  fun_induction boundaryFrom s offset within with
  | case1 offset within clean => exact Nat.le_refl _
  | case2 offset within inside ih => omega

/-- What a search goes over would cut a character. -/
theorem stopsAt_le {offset' : Nat} (boundary : IsBoundary s offset') (after : offset ≤ offset') :
    stopsAt s offset within ≤ offset' := by
  unfold stopsAt
  fun_induction boundaryFrom s offset within with
  | case1 offset within clean => exact after
  | case2 offset within inside ih =>
    have different : offset ≠ offset' := by
      rintro rfl
      exact inside (isBoundary_iff.mp boundary)
    exact ih (by omega)

/-- The character before a place that is not the start of the text. -/
theorem IsBoundary.exists_before {offset' : Nat} (boundary : IsBoundary s offset')
    (positive : 0 < offset') :
    ∃ before, IsBoundary s before ∧ before < offset' ∧ offset' ≤ before + 4 := by
  obtain ⟨front, rest, rfl, rfl⟩ := boundary
  have filled : front.toList ≠ [] := by
    intro empty
    rw [String.toList_eq_nil_iff.mp empty] at positive
    exact absurd positive (by decide)
  obtain ⟨shorter, c, rfl⟩ : ∃ shorter c, front = shorter ++ String.singleton c := by
    refine ⟨String.ofList front.toList.dropLast, front.toList.getLast filled, ?_⟩
    rw [← String.toList_inj, String.toList_append, String.toList_ofList, String.toList_singleton,
      List.dropLast_concat_getLast]
  have least := c.utf8Size_pos
  have most := c.utf8Size_le_four
  rw [String.utf8ByteSize_append, String.utf8ByteSize_singleton]
  exact ⟨_, ⟨shorter, String.singleton c ++ rest, String.append_assoc, rfl⟩, by omega,
    by omega⟩

/-- A character has at most three bytes behind its first. -/
theorem stopsAt_le_add_three : stopsAt s offset within ≤ offset + 3 := by
  by_cases start : stopsAt s offset within = 0
  · omega
  · obtain ⟨before, boundary, lower, close⟩ :=
      (isBoundary_stopsAt within).exists_before (Nat.pos_of_ne_zero start)
    have earlier : before < offset := by
      refine Nat.lt_of_not_le fun later => ?_
      have reached := stopsAt_le within boundary later
      omega
    omega

end

theorem tail_of_fits {room : Nat} {s : String} (fits : s.utf8ByteSize ≤ room) : tail room s = s :=
  if_pos fits

/-- A tail that is cut is what is behind the place where the search ends. -/
theorem exists_front_of_cut {room : Nat} {s : String} (cut : room < s.utf8ByteSize) :
    ∃ front, s = front ++ tail room s ∧
      front.utf8ByteSize = stopsAt s (s.utf8ByteSize - room) (Nat.sub_le _ _) := by
  have parts := (boundaryFrom s (s.utf8ByteSize - room) (Nat.sub_le _ _)).splits
  rw [tail, if_neg (Nat.not_le.mpr cut)]
  refine ⟨_, parts.eq_append, ?_⟩
  rw [stopsAt, parts.offset_eq_rawEndPos, String.byteIdx_rawEndPos]

/-- The tail of a text is its longest end that is cut between characters and fits. It is the whole
text where that fits, and otherwise at most three bytes short of what would fit; and the search for
the cut, from the first byte that would fit on, looks at no byte behind the text. -/
theorem tail_is_longest_end_that_fits (room : Nat) (s : String) :
    (∃ front, s = front ++ tail room s) ∧
    (tail room s).utf8ByteSize ≤ room ∧
    (∀ front rest, s = front ++ rest → (tail room s).utf8ByteSize < rest.utf8ByteSize →
      room < rest.utf8ByteSize) ∧
    (s.utf8ByteSize ≤ room → tail room s = s) ∧
    (room < s.utf8ByteSize → room ≤ (tail room s).utf8ByteSize + 3 ∧
      ∃ steps ≤ 3, stopsAt s (s.utf8ByteSize - room) (Nat.sub_le _ _) =
          s.utf8ByteSize - room + steps ∧
        s.utf8ByteSize - room + steps + (tail room s).utf8ByteSize = s.utf8ByteSize ∧
        IsBoundary s (s.utf8ByteSize - room + steps) ∧
        ∀ k < steps, ¬ IsBoundary s (s.utf8ByteSize - room + k)) := by
  by_cases fits : s.utf8ByteSize ≤ room
  · rw [tail_of_fits fits]
    refine ⟨⟨"", String.empty_append.symm⟩, fits, fun front rest whole longer => ?_, fun _ => rfl,
      fun cut => absurd fits (Nat.not_le.mpr cut)⟩
    have sum := congrArg String.utf8ByteSize whole
    rw [String.utf8ByteSize_append] at sum
    omega
  · have cut := Nat.lt_of_not_le fits
    obtain ⟨front, whole, reached⟩ := exists_front_of_cut cut
    have within : s.utf8ByteSize - room ≤ s.utf8ByteSize := Nat.sub_le _ _
    have further := le_stopsAt within
    have close := stopsAt_le_add_three within
    have sum := congrArg String.utf8ByteSize whole
    rw [String.utf8ByteSize_append, reached] at sum
    refine ⟨⟨front, whole⟩, by omega, fun front' rest whole' longer => ?_, fun short =>
      absurd short fits, fun _ => ⟨by omega, ?_⟩⟩
    · have sum' := congrArg String.utf8ByteSize whole'
      rw [String.utf8ByteSize_append] at sum'
      -- A front that reached the start of the search would not be shorter than the one cut off.
      have before : front'.utf8ByteSize < s.utf8ByteSize - room := by
        refine Nat.lt_of_not_le fun later => ?_
        have passed := stopsAt_le within ⟨front', rest, whole', rfl⟩ later
        omega
      omega
    · obtain ⟨steps, exact'⟩ := Nat.exists_eq_add_of_le further
      refine ⟨steps, by omega, exact', by omega, exact' ▸ isBoundary_stopsAt within, ?_⟩
      intro k fewer boundary
      have passed := stopsAt_le within boundary (Nat.le_add_right _ _)
      omega

/-- Of three characters of two bytes each, three bytes hold the last one. -/
theorem accented_tail_is_cut_after_a_byte :
    3 < "ééé".utf8ByteSize ∧ tail 3 "ééé" = "é" ∧
      ∃ steps ≤ 3, 3 + steps + "é".utf8ByteSize = 6 ∧ ¬ IsBoundary "ééé" 3 := by
  have size : "ééé".utf8ByteSize = 6 := by decide +kernel
  have cut : 3 < "ééé".utf8ByteSize := by decide +kernel
  have last : tail 3 "ééé" = "é" := by decide +kernel
  obtain ⟨_, steps, few, _, sum, _, inside⟩ := (tail_is_longest_end_that_fits 3 "ééé").2.2.2.2 cut
  rw [last, size] at sum
  have one : steps = 1 := by
    have two : "é".utf8ByteSize = 2 := by decide +kernel
    omega
  rw [one, size] at inside
  exact ⟨cut, last, steps, few, sum, inside 0 (by decide)⟩

end BasicBlocks.Tail
