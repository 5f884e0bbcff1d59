import Mathlib.Data.List.Induction
import Mathlib.Tactic.IntervalCases
import BasicBlocks.Text.Blank
import BasicBlocks.Text.Numeral

/-!
# Spelled numbers

A number may be spelled with zeros in front and with letters of either case. What is written of a
number spells it, and a word is read from each of its spellings, in decimal or in hexadecimal.
-/

namespace BasicBlocks.Numeral

/-- A digit of value `d`. Letters are of either case. -/
def IsDigit (d : Nat) (c : Char) : Prop := c = digitChar d ∨ c = (digitChar d).toUpper

/-- Digits of `n`, most significant first. The first ones may be zeros. -/
inductive Spells (base : Nat) : Nat → List Char → Prop
  | digit {d c} (small : d < base) (h : IsDigit d c) : Spells base d [c]
  | snoc {n d cs c} (front : Spells base n cs) (small : d < base) (h : IsDigit d c) :
      Spells base (n * base + d) (cs ++ [c])

/-- A word in decimal, or in hexadecimal after its mark. -/
inductive SpellsWord (w : Word) : List Char → Prop
  | decimal {cs} (h : Spells 10 w.toNat cs) : SpellsWord w cs
  | hexadecimal {mark cs} (marked : mark = 'x' ∨ mark = 'X') (h : Spells 16 w.toNat cs) :
      SpellsWord w ('0' :: mark :: cs)

theorem spells_writeChars {base : Nat} (hbase : 2 ≤ base) (n : Nat) :
    Spells base n (writeChars base n) := by
  unfold writeChars
  induction n using digits.induct base with
  | case1 n single =>
    rw [digits, dif_pos single]
    exact .digit (by omega) (Or.inl rfl)
  | case2 n several ih =>
    have last : n % base < base := Nat.mod_lt n (by omega)
    have whole : n / base * base + n % base = n := Nat.div_add_mod' n base
    have longer := ih.snoc last (Or.inl rfl)
    rw [digits, dif_neg several, List.map_append, List.map_singleton]
    rwa [whole] at longer

theorem spellsWord_decimal (w : Word) : SpellsWord w (decimal w.toNat).toList := by
  rw [decimal, String.toList_ofList]
  exact .decimal (spells_writeChars (by decide) w.toNat)

/-- All digits of the bases up to sixteen. -/
def digitCharacters : List Char := "0123456789abcdefABCDEF".toList

theorem mem_digitCharacters {d : Nat} {c : Char} (small : d < 16) (h : IsDigit d c) :
    c ∈ digitCharacters := by
  rcases h with rfl | rfl
  · interval_cases d <;> decide
  · interval_cases d <;> decide

theorem digit?_of_isDigit {base d : Nat} {c : Char} (hbase : base ≤ 16) (small : d < base)
    (h : IsDigit d c) : digit? base c = some d := by
  have bound : d < 16 := Nat.lt_of_lt_of_le small hbase
  rcases h with rfl | rfl
  · interval_cases d <;> simpa [digit?, digitChar] using small
  · interval_cases d <;> simpa [digit?, digitChar] using small

theorem Spells.subset {base n : Nat} {cs : List Char} (h : Spells base n cs) (hbase : base ≤ 16) :
    cs ⊆ digitCharacters := by
  induction h with
  | digit small isDigit =>
    exact List.cons_subset.mpr ⟨mem_digitCharacters (by omega) isDigit, List.nil_subset _⟩
  | snoc _ small isDigit ih =>
    have last := mem_digitCharacters (by omega) isDigit
    exact List.append_subset.mpr ⟨ih, List.cons_subset.mpr ⟨last, List.nil_subset _⟩⟩

theorem Spells.ne_nil {base n : Nat} {cs : List Char} (h : Spells base n cs) : cs ≠ [] := by
  cases h with
  | digit => exact List.cons_ne_nil _ _
  | snoc => exact List.append_ne_nil_of_right_ne_nil _ (List.cons_ne_nil _ _)

theorem readFrom_append (base acc : Nat) (cs : List Char) (c : Char) :
    readFrom base acc (cs ++ [c]) =
      (readFrom base acc cs).bind fun n => (digit? base c).map (n * base + ·) := by
  induction cs generalizing acc with
  | nil =>
    simp only [List.nil_append, readFrom]
    cases digit? base c <;> rfl
  | cons first rest ih =>
    rw [List.cons_append, readFrom, readFrom]
    cases digit? base first with
    | none => rfl
    | some d => exact ih (acc * base + d)

theorem isDigit_of_digit? {base d : Nat} {c : Char} (h : digit? base c = some d) :
    d < base ∧ IsDigit d c := by
  obtain ⟨value, small⟩ := Option.filter_eq_some_iff.mp h
  refine ⟨by simpa using small, ?_⟩
  rw [← Char.ofNat_toNat c]
  generalize c.toNat = n at value
  simp only [Bool.and_eq_true, decide_eq_true_eq] at value
  -- In each range the character is found by its value.
  split at value
  next range =>
    obtain rfl := Option.some.inj value
    have lo : 48 ≤ n := range.1
    have hi : n ≤ 57 := range.2
    left
    interval_cases n <;> decide
  next =>
    split at value
    next range =>
      obtain rfl := Option.some.inj value
      have lo : 97 ≤ n := range.1
      have hi : n ≤ 102 := range.2
      left
      interval_cases n <;> decide
    next =>
      split at value
      next range =>
        obtain rfl := Option.some.inj value
        have lo : 65 ≤ n := range.1
        have hi : n ≤ 70 := range.2
        right
        interval_cases n <;> decide
      next => cases value

theorem spells_of_readFrom {base n : Nat} {cs : List Char} (filled : cs ≠ [])
    (h : readFrom base 0 cs = some n) : Spells base n cs := by
  induction cs using List.reverseRecOn generalizing n with
  | nil => exact absurd rfl filled
  | append_singleton front c ih =>
    rw [readFrom_append, Option.bind_eq_some_iff] at h
    obtain ⟨m, hm, last⟩ := h
    obtain ⟨d, hd, rfl⟩ := Option.map_eq_some_iff.mp last
    obtain ⟨small, isDigit⟩ := isDigit_of_digit? hd
    cases front with
    | nil =>
      obtain rfl : 0 = m := Option.some.inj hm
      rw [Nat.zero_mul, Nat.zero_add]
      exact .digit small isDigit
    | cons first rest => exact .snoc (ih (List.cons_ne_nil first rest) hm) small isDigit

/-- What is read is what is spelled. -/
theorem spells_iff_read? {base n : Nat} {cs : List Char} (hbase : base ≤ 16) :
    Spells base n cs ↔ read? base cs = some n := by
  rw [read?]
  constructor
  · intro h
    rw [List.isEmpty_eq_false_iff.mpr h.ne_nil, if_neg Bool.false_ne_true]
    induction h with
    | digit small isDigit => simp [readFrom, digit?_of_isDigit hbase small isDigit]
    | snoc _ small isDigit ih =>
      simp [readFrom_append, ih, digit?_of_isDigit hbase small isDigit]
  · intro h
    split at h
    · cases h
    next filled => exact spells_of_readFrom (by simpa using filled) h

theorem readWord?_of_spells {base : Nat} {w : Word} {cs : List Char}
    (h : Spells base w.toNat cs) (hbase : base ≤ 16) : readWord? base cs = some w := by
  have unsigned : dropPlus cs = cs := by
    unfold dropPlus
    split
    · have plus := h.subset hbase List.mem_cons_self
      exact absurd plus (by decide)
    · rfl
  rw [readWord?, unsigned, (spells_iff_read? hbase).mp h]
  exact Word.ofNat?_toNat w

/-- No decimal digit can be taken for a mark. -/
theorem readPrefixedWord?_of_spellsWord {w : Word} {cs : List Char} (h : SpellsWord w cs) :
    readPrefixedWord? cs = some w := by
  cases h with
  | decimal h =>
    have digits := h.subset (by decide)
    unfold readPrefixedWord?
    split
    · exact absurd (@digits 'x' (by simp)) (by decide)
    · exact absurd (@digits 'X' (by simp)) (by decide)
    · exact readWord?_of_spells h (by decide)
  | hexadecimal marked h =>
    rcases marked with rfl | rfl
    · exact readWord?_of_spells h (by decide)
    · exact readWord?_of_spells h (by decide)

theorem SpellsWord.subset {w : Word} {cs : List Char} (h : SpellsWord w cs) :
    cs ⊆ 'x' :: 'X' :: digitCharacters := by
  cases h with
  | decimal h =>
    intro c hc
    exact List.mem_cons_of_mem _ (List.mem_cons_of_mem _ (h.subset (by decide) hc))
  | hexadecimal marked h =>
    have digits := h.subset (by decide)
    intro c hc
    rcases List.mem_cons.mp hc with rfl | hc
    · decide
    rcases List.mem_cons.mp hc with rfl | hc
    · rcases marked with rfl | rfl <;> decide
    · exact List.mem_cons_of_mem _ (List.mem_cons_of_mem _ (digits hc))

/-- There is nothing to trim from a spelled number. -/
theorem SpellsWord.trim {w : Word} {cs : List Char} (h : SpellsWord w cs) : Text.trim cs = cs := by
  have visible : ∀ c ∈ cs, Text.isBlank c = false := by
    have all : ('x' :: 'X' :: digitCharacters).all (!Text.isBlank ·) = true := by decide
    exact fun c hc => by simpa using List.all_eq_true.mp all c (h.subset hc)
  have kept : ∀ l : List Char, (∀ c ∈ l, Text.isBlank c = false) →
      l.dropWhile Text.isBlank = l := by
    intro l hl
    cases l with
    | nil => rfl
    | cons c rest => exact List.dropWhile_cons_of_neg (by simp [hl c List.mem_cons_self])
  rw [Text.trim, Text.trimStart, kept cs visible, Text.trimEnd, kept, List.reverse_reverse]
  exact fun c hc => visible c (List.mem_reverse.mp hc)

theorem SpellsWord.exists_digit {w : Word} {cs : List Char} (h : SpellsWord w cs) :
    ∃ c rest, cs = c :: rest ∧ c ∈ digitCharacters := by
  cases h with
  | decimal h =>
    obtain ⟨c, rest, rfl⟩ := List.exists_cons_of_ne_nil h.ne_nil
    exact ⟨c, rest, rfl, h.subset (by decide) List.mem_cons_self⟩
  | hexadecimal => exact ⟨_, _, rfl, by decide⟩

end BasicBlocks.Numeral
