import Mathlib.Data.List.TakeWhile
import BasicBlocks.Proofs.FactFiles

/-!
# Integers of fact tables

A field of a fact table is an integer if what is left of it without the white space at its ends is
one: digits in decimal, or in hexadecimal after a mark, with at most one plus sign before the first
digit. What is read is the value of the digits, however many zeros lead them, and a value that no
word holds is refused like a text that is no integer at all.
-/

namespace BasicBlocks

namespace Text

/-- The text without the white space at its ends. -/
structure IsTrimmed (core cs : List Char) : Prop where
  around : ∃ before after, cs = before ++ core ++ after ∧
    (∀ c ∈ before, isBlank c = true) ∧ ∀ c ∈ after, isBlank c = true
  first : ∀ c ∈ core.head?, isBlank c = false
  last : ∀ c ∈ core.getLast?, isBlank c = false

theorem dropWhile_append_core {blanks core : List Char} (blank : ∀ c ∈ blanks, isBlank c = true)
    (first : ∀ c ∈ core.head?, isBlank c = false) :
    (blanks ++ core).dropWhile isBlank = core := by
  rw [List.dropWhile_append_of_pos blank]
  cases core with
  | nil => rfl
  | cons c core => exact List.dropWhile_cons_of_neg (by simp [first c rfl])

/-- What has been dropped ends where the text no longer begins with white space. -/
theorem head?_dropWhile_isBlank (cs : List Char) :
    ∀ c ∈ (cs.dropWhile isBlank).head?, isBlank c = false := by
  intro c hc
  have stopped := List.head?_dropWhile_not isBlank cs
  rw [Option.mem_def.mp hc] at stopped
  simpa using stopped

theorem isTrimmed_iff {core cs : List Char} : IsTrimmed core cs ↔ trim cs = core := by
  constructor
  · rintro ⟨⟨before, after, rfl, blankBefore, blankAfter⟩, first, last⟩
    have noneAfter : (after.reverse ++ core.reverse).dropWhile isBlank = core.reverse :=
      dropWhile_append_core (fun c hc => blankAfter c (List.mem_reverse.mp hc))
        (by rwa [List.head?_reverse])
    cases core with
    | nil =>
      have all : ∀ c ∈ before ++ after, isBlank c = true :=
        List.forall_mem_append.mpr ⟨blankBefore, blankAfter⟩
      simp [trim, trimStart, trimEnd, List.dropWhile_eq_nil_iff.mpr all]
    | cons c core =>
      have noneBefore : trimStart (before ++ (c :: core ++ after)) = c :: core ++ after :=
        dropWhile_append_core blankBefore first
      rw [trim, List.append_assoc, noneBefore, trimEnd, List.reverse_append, noneAfter,
        List.reverse_reverse]
  · rintro rfl
    have front : cs.takeWhile isBlank ++ trimStart cs = cs := List.takeWhile_append_dropWhile
    have back : trim cs ++ ((trimStart cs).reverse.takeWhile isBlank).reverse = trimStart cs := by
      rw [trim, trimEnd, ← List.reverse_append, List.takeWhile_append_dropWhile,
        List.reverse_reverse]
    refine ⟨⟨_, _, by rw [List.append_assoc, back, front], ?_, ?_⟩, ?_, ?_⟩
    · exact fun c hc => List.mem_takeWhile_imp hc
    · exact fun c hc => List.mem_takeWhile_imp (List.mem_reverse.mp hc)
    · intro c hc
      obtain ⟨rest, begins⟩ := List.head?_eq_some_iff.mp hc
      refine head?_dropWhile_isBlank cs c ?_
      rw [← trimStart, ← back, begins]
      rfl
    · rw [trim, trimEnd, List.getLast?_reverse]
      exact head?_dropWhile_isBlank _

end Text

namespace Numeral

/-- Digits, with a plus sign before them or without. -/
inductive Signed (base n : Nat) : List Char → Prop
  | plain {cs} (h : Spells base n cs) : Signed base n cs
  | plus {cs} (h : Spells base n cs) : Signed base n ('+' :: cs)

/-- A number in decimal, or in hexadecimal after its mark. -/
inductive IsInteger (n : Nat) : List Char → Prop
  | decimal {cs} (h : Signed 10 n cs) : IsInteger n cs
  | hexadecimal {mark cs} (marked : mark = 'x' ∨ mark = 'X') (h : Signed 16 n cs) :
      IsInteger n ('0' :: mark :: cs)

/-- Texts that are no numbers for want of a digit, or for what stands among the digits. -/
inductive Malformed : List Char → Prop
  | empty : Malformed []
  | sign : Malformed ['+']
  | mark {mark} (marked : mark = 'x' ∨ mark = 'X') : Malformed ['0', mark]
  | markedSign {mark} (marked : mark = 'x' ∨ mark = 'X') : Malformed ['0', mark, '+']
  | minus {cs} (inside : '-' ∈ cs) : Malformed cs
  | blank {cs c} (inside : c ∈ cs) (isBlank : Text.isBlank c = true) : Malformed cs
  | twice {mark cs} (marked : mark = 'x' ∨ mark = 'X') (again : 'x' ∈ cs ∨ 'X' ∈ cs) :
      Malformed ('0' :: mark :: cs)

variable {base n : Nat} {cs : List Char} {w : Word}

/-! ## Zeros in front -/

theorem Spells.zero_cons (h : Spells base n cs) : Spells base n ('0' :: cs) := by
  have zero : IsDigit 0 '0' := Or.inl (by decide)
  induction h with
  | digit small isDigit =>
    have longer := (Spells.digit (Nat.zero_lt_of_lt small) zero).snoc small isDigit
    rwa [Nat.zero_mul, Nat.zero_add] at longer
  | snoc _ small isDigit ih => exact ih.snoc small isDigit

theorem Spells.zeros (h : Spells base n cs) (k : Nat) :
    Spells base n (List.replicate k '0' ++ cs) := by
  induction k with
  | zero => exact h
  | succ k ih => exact ih.zero_cons

/-! ## Signs and marks -/

theorem Signed.subset (h : Signed base n cs) (small : base ≤ 16) : cs ⊆ '+' :: digitCharacters := by
  cases h with
  | plain h => exact List.subset_cons_of_subset _ (h.subset small)
  | plus h => exact List.cons_subset_cons _ (h.subset small)

theorem IsInteger.subset (h : IsInteger n cs) :
    cs ⊆ 'x' :: 'X' :: '+' :: digitCharacters := by
  have wider : '+' :: digitCharacters ⊆ 'x' :: 'X' :: '+' :: digitCharacters :=
    List.subset_cons_of_subset _ (List.subset_cons_self _ _)
  cases h with
  | decimal h => exact List.Subset.trans (h.subset (by decide)) wider
  | @hexadecimal mark cs marked h =>
    have rest := List.Subset.trans (h.subset (by decide)) wider
    refine List.cons_subset.mpr ⟨by decide, List.cons_subset.mpr ⟨?_, rest⟩⟩
    rcases marked with rfl | rfl <;> decide

theorem signed_iff_read? (small : base ≤ 16) :
    Signed base n cs ↔ read? base (dropPlus cs) = some n := by
  rw [← spells_iff_read? small]
  constructor
  · rintro (h | h)
    · -- No digit can be taken for a sign.
      unfold dropPlus
      split
      · exact absurd (h.subset small List.mem_cons_self) (by decide)
      · exact h
    · exact h
  · intro h
    unfold dropPlus at h
    split at h
    · exact .plus h
    · exact .plain h

theorem readWord?_of_signed (small : base ≤ 16) (h : Signed base n cs) :
    readWord? base cs = Word.ofNat? n := by
  rw [readWord?, (signed_iff_read? small).mp h, Option.bind_some]

theorem signed_of_readWord? (small : base ≤ 16) (h : readWord? base cs = some w) :
    Signed base w.toNat cs := by
  obtain ⟨n, read, fits⟩ := Option.bind_eq_some_iff.mp h
  rw [Word.toNat_of_ofNat? fits]
  exact (signed_iff_read? small).mpr read

/-- A number that is too great for a word is read as nothing. -/
theorem readPrefixedWord?_of_isInteger (h : IsInteger n cs) :
    readPrefixedWord? cs = Word.ofNat? n := by
  cases h with
  | decimal h =>
    have digits := h.subset (by decide)
    unfold readPrefixedWord?
    split
    · exact absurd (@digits 'x' (by simp)) (by decide)
    · exact absurd (@digits 'X' (by simp)) (by decide)
    · exact readWord?_of_signed (by decide) h
  | hexadecimal marked h =>
    rcases marked with rfl | rfl
    · exact readWord?_of_signed (by decide) h
    · exact readWord?_of_signed (by decide) h

theorem readPrefixedWord?_eq_some_iff :
    readPrefixedWord? cs = some w ↔ IsInteger w.toNat cs := by
  constructor
  · intro h
    unfold readPrefixedWord? at h
    split at h
    · exact .hexadecimal (Or.inl rfl) (signed_of_readWord? (by decide) h)
    · exact .hexadecimal (Or.inr rfl) (signed_of_readWord? (by decide) h)
    · exact .decimal (signed_of_readWord? (by decide) h)
  · intro h
    rw [readPrefixedWord?_of_isInteger h, Word.ofNat?_toNat]

/-! ## What is no number -/

theorem Spells.exists_last (h : Spells base n cs) (small : base ≤ 16) :
    ∃ c ∈ cs.getLast?, c ∈ digitCharacters :=
  ⟨cs.getLast h.ne_nil, List.getLast?_eq_some_getLast h.ne_nil, h.subset small (List.getLast_mem _)⟩

theorem Signed.exists_last (h : Signed base n cs) (small : base ≤ 16) :
    ∃ c ∈ cs.getLast?, c ∈ digitCharacters := by
  cases h with
  | plain h => exact h.exists_last small
  | plus h =>
    obtain ⟨c, last, isDigit⟩ := h.exists_last small
    exact ⟨c, List.mem_getLast?_cons last, isDigit⟩

/-- The last character of a number is a digit. -/
theorem IsInteger.exists_last (h : IsInteger n cs) : ∃ c ∈ cs.getLast?, c ∈ digitCharacters := by
  cases h with
  | decimal h => exact h.exists_last (by decide)
  | hexadecimal _ h =>
    obtain ⟨c, last, isDigit⟩ := h.exists_last (by decide)
    exact ⟨c, List.mem_getLast?_cons (List.mem_getLast?_cons last), isDigit⟩

theorem IsInteger.not_malformed (h : IsInteger n cs) : ¬ Malformed cs := by
  intro malformed
  have among := h.subset
  obtain ⟨last, isLast, isDigit⟩ := h.exists_last
  cases malformed with
  | empty => cases isLast
  | sign =>
    obtain rfl : '+' = last := Option.some.inj isLast
    exact absurd isDigit (by decide)
  | mark marked =>
    obtain rfl := Option.some.inj isLast
    rcases marked with rfl | rfl <;> exact absurd isDigit (by decide)
  | markedSign =>
    obtain rfl : '+' = last := Option.some.inj isLast
    exact absurd isDigit (by decide)
  | minus minus => exact absurd (among minus) (by decide)
  | @blank _ c inside blank =>
    have visible : ('x' :: 'X' :: '+' :: digitCharacters).all (!Text.isBlank ·) = true := by
      decide
    exact absurd blank (by simpa using List.all_eq_true.mp visible c (among inside))
  | @twice mark cs marked again =>
    -- A mark at the second place is none of the decimal digits, and one further on none of the
    -- hexadecimal ones.
    cases h with
    | decimal h =>
      have second : mark ∈ '+' :: digitCharacters := h.subset (by decide) (by simp)
      rcases marked with rfl | rfl <;> exact absurd second (by decide)
    | hexadecimal _ h =>
      have digits := h.subset (by decide)
      rcases again with inside | inside <;> exact absurd (digits inside) (by decide)

end Numeral

namespace Facts

open Numeral

theorem readInteger_eq_ok_iff {column : FactColumn} {text : String} {w : Word} :
    readInteger column text = .ok w ↔ IsInteger w.toNat (Text.trim text.toList) := by
  rw [← readPrefixedWord?_eq_some_iff, readInteger]
  cases readPrefixedWord? (Text.trim text.toList) with
  | none => simp
  | some v => simp

theorem readInteger_eq_error_iff {column : FactColumn} {text : String} {fault : FactFault} :
    readInteger column text = .error fault ↔
      fault = .notAnInteger column (String.ofList (Text.trim text.toList)) ∧
        ∀ w : Word, ¬ IsInteger w.toNat (Text.trim text.toList) := by
  simp only [← readPrefixedWord?_eq_some_iff, readInteger]
  cases readPrefixedWord? (Text.trim text.toList) with
  | none => simp [eq_comm]
  | some v => simp

/-- A field is read if and only if it is a number that a word holds, and any other is refused with
what was left of it. A word is read from what is written of it, with any zeros in front. -/
theorem integers_are_read_by_their_grammar (column : FactColumn) :
    (∀ text : String, ∃ core, Text.IsTrimmed core text.toList ∧
      (∀ w, readInteger column text = .ok w ↔ IsInteger w.toNat core) ∧
      (∀ fault, readInteger column text = .error fault ↔
        fault = .notAnInteger column (String.ofList core) ∧ ∀ w : Word, ¬ IsInteger w.toNat core) ∧
      (∀ path line, (Fault.malformedFact path line
          (.notAnInteger column (String.ofList core))).message =
        "Malformed fact at " ++ path ++ ":" ++ decimal line ++ ": " ++ (column.label ++ " field '"
          ++ String.ofList core ++ "' is not an integer")) ∧
      ((Malformed core ∨ ∃ n, Word.bound ≤ n ∧ IsInteger n core) →
        readInteger column text = .error (.notAnInteger column (String.ofList core)))) ∧
    ∀ w : Word,
      readInteger column (decimal w.toNat) = .ok w ∧
      readInteger column ("0x" ++ hexadecimal w.toNat) = .ok w ∧
      ∀ zeros,
        readInteger column (String.ofList (List.replicate zeros '0' ++ writeChars 10 w.toNat)) =
          .ok w ∧
        ∀ mark, mark = 'x' ∨ mark = 'X' → readInteger column
          (String.ofList ('0' :: mark :: (List.replicate zeros '0' ++ writeChars 16 w.toNat))) =
          .ok w := by
  have inDecimal (w : Word) (zeros : Nat) :
      SpellsWord w (List.replicate zeros '0' ++ writeChars 10 w.toNat) :=
    .decimal ((spells_writeChars (by decide) _).zeros zeros)
  have inHexadecimal (w : Word) (zeros : Nat) {mark : Char} (marked : mark = 'x' ∨ mark = 'X') :
      SpellsWord w ('0' :: mark :: (List.replicate zeros '0' ++ writeChars 16 w.toNat)) :=
    .hexadecimal marked ((spells_writeChars (by decide) _).zeros zeros)
  have written (w : Word) {cs : List Char} (h : SpellsWord w cs) :
      readInteger column (String.ofList cs) = .ok w :=
    readInteger_of_spellsWord (by rwa [String.toList_ofList]) column
  refine ⟨fun text => ⟨Text.trim text.toList, Text.isTrimmed_iff.mpr rfl,
    fun w => readInteger_eq_ok_iff, fun fault => readInteger_eq_error_iff, fun _ _ => rfl,
    fun noNumber => readInteger_eq_error_iff.mpr ⟨rfl, fun w h => ?_⟩⟩, fun w => ⟨?_, ?_, ?_⟩⟩
  · rcases noNumber with malformed | ⟨n, great, spelled⟩
    · exact h.not_malformed malformed
    · -- The text has one value, so it would have to be both a word and too great for one.
      have value := readPrefixedWord?_of_isInteger spelled
      rw [readPrefixedWord?_eq_some_iff.mpr h] at value
      have small := Word.toNat_lt_bound w
      have := Word.toNat_of_ofNat? value.symm
      omega
  · exact written w (inDecimal w 0)
  · have mark : "0x" ++ hexadecimal w.toNat = String.ofList ('0' :: 'x' :: writeChars 16 w.toNat) :=
      String.toList_inj.mp (by simp [hexadecimal])
    rw [mark]
    exact written w (inHexadecimal w 0 (Or.inl rfl))
  · exact fun zeros => ⟨written w (inDecimal w zeros),
      fun mark marked => written w (inHexadecimal w zeros marked)⟩

end Facts

end BasicBlocks
