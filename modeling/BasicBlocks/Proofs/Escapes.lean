import Mathlib.Tactic.SplitIfs
import BasicBlocks.Json.Lexer

/-!
# Escaped texts

What is written of a text between quotes ends at the closing quote, whatever stands in the text, and
is read back as the text.
-/

namespace BasicBlocks.Json

/-- The ways to write a character between quotes. -/
inductive EscapeForm (c : Char) : List Char → Prop
  /-- A letter stands for it. -/
  | short (letter : Char) (meant : shortEscapes.lookup letter = some c) (notUnit : letter ≠ 'u') :
      EscapeForm c ['\\', letter]
  /-- It is given by its number. -/
  | unit (small : c.toNat < 0x20) : EscapeForm c
      ['\\', 'u', '0', '0', Numeral.digitChar (c.toNat / 16), Numeral.digitChar (c.toNat % 16)]
  /-- It stands for itself. -/
  | plain (notQuote : c ≠ '"') (notBackslash : c ≠ '\\') (visible : isControl c = false) :
      EscapeForm c [c]

theorem escapeForm_escapeChar (c : Char) : EscapeForm c (escapeChar c) := by
  unfold escapeChar
  split_ifs with quoted escaped feed ret tab back page control
  · subst quoted
    exact .short '"' (by decide) (by decide)
  · subst escaped
    exact .short '\\' (by decide) (by decide)
  · subst feed
    exact .short 'n' (by decide) (by decide)
  · subst ret
    exact .short 'r' (by decide) (by decide)
  · subst tab
    exact .short 't' (by decide) (by decide)
  · subst back
    exact .short 'b' (by decide) (by decide)
  · subst page
    exact .short 'f' (by decide) (by decide)
  · exact .unit (by simpa [isControl] using control)
  · exact .plain quoted escaped (by simpa using control)

/-! ## The closing quote -/

theorem takeRun_plain {c : Char} (notQuote : c ≠ '"') (notBackslash : c ≠ '\\')
    (cs : List Char) :
    takeRun (c :: cs) = (takeRun cs).map fun r => (c :: r.1, r.2) := by
  rw [takeRun]
  · exact notQuote
  · rintro _ _ rfl
    exact absurd rfl notBackslash

theorem takeRun_pair (c : Char) (cs : List Char) :
    takeRun ('\\' :: c :: cs) = (takeRun cs).map fun r => ('\\' :: c :: r.1, r.2) := by
  rw [takeRun]

theorem digitChar_plain {d : Nat} (small : d < 16) :
    Numeral.digitChar d ≠ '"' ∧ Numeral.digitChar d ≠ '\\' := by
  have all : ∀ d < 16, Numeral.digitChar d ≠ '"' ∧ Numeral.digitChar d ≠ '\\' := by decide
  exact all d small

/-- No escape holds a quote that could be taken for the closing one. -/
theorem EscapeForm.takeRun_append {c : Char} {written : List Char} (h : EscapeForm c written)
    (cs : List Char) :
    takeRun (written ++ cs) = (takeRun cs).map fun r => (written ++ r.1, r.2) := by
  cases h with
  | short letter => exact takeRun_pair letter cs
  | unit small =>
    have high := digitChar_plain (d := c.toNat / 16) (by omega)
    have low := digitChar_plain (d := c.toNat % 16) (by omega)
    simp only [List.cons_append, List.nil_append]
    rw [takeRun_pair, takeRun_plain (by decide) (by decide), takeRun_plain (by decide) (by decide),
      takeRun_plain high.1 high.2, takeRun_plain low.1 low.2]
    simp only [Option.map_map]
    rfl
  | plain notQuote notBackslash => exact takeRun_plain notQuote notBackslash cs

theorem takeRun_escapeChars (cs rest : List Char) :
    takeRun (escapeChars cs ++ '"' :: rest) = some (escapeChars cs, rest) := by
  induction cs with
  | nil => rfl
  | cons c cs ih =>
    have front : escapeChars (c :: cs) = escapeChar c ++ escapeChars cs := rfl
    rw [front, List.append_assoc, (escapeForm_escapeChar c).takeRun_append, ih]
    rfl

/-! ## What the escapes mean -/

theorem read?_unit {n : Nat} (small : n < 0x20) :
    Numeral.read? 16 ['0', '0', Numeral.digitChar (n / 16), Numeral.digitChar (n % 16)] =
      some n := by
  have all : ∀ n < 0x20, Numeral.read? 16
      ['0', '0', Numeral.digitChar (n / 16), Numeral.digitChar (n % 16)] = some n := by decide
  exact all n small

/-- A small unit is no surrogate, so it is taken by itself. -/
theorem assemble?_unit {n : Nat} (small : n < 0x20) (ps : List Piece) :
    assemble? (.unit n :: ps) = (assemble? ps).map (Char.ofNat n :: ·) := by
  have notHigh : isHighSurrogate n = false := by
    unfold isHighSurrogate
    simp
    omega
  have notLow : isLowSurrogate n = false := by
    unfold isLowSurrogate
    simp
    omega
  cases ps with
  | nil => simp [assemble?, notHigh, notLow]
  | cons p ps =>
    cases p with
    | char c => simp [assemble?, notHigh, notLow]
    | unit m =>
      conv => lhs; rw [assemble?]
      simp [notHigh, notLow]

/-- Each character is read as one piece, and the piece means the character. -/
theorem EscapeForm.exists_piece {c : Char} {written : List Char} (h : EscapeForm c written)
    (cs : List Char) :
    ∃ p, pieces? (written ++ cs) = (pieces? cs).map (p :: ·) ∧
      ∀ ps, assemble? (p :: ps) = (assemble? ps).map (c :: ·) := by
  have mark : '\\' = backslash := rfl
  cases h with
  | short letter meant notUnit =>
    refine ⟨.char c, ?_, fun ps => by rw [assemble?]⟩
    simp only [List.cons_append, List.nil_append]
    rw [pieces?, if_pos mark, meant]
    · cases pieces? cs <;> rfl
    · exact fun _ _ _ _ _ same _ => notUnit same
  | unit small =>
    refine ⟨.unit c.toNat, ?_, fun ps => by rw [assemble?_unit small, Char.ofNat_toNat]⟩
    simp only [List.cons_append, List.nil_append]
    rw [pieces?, if_pos mark, read?_unit small]
    cases pieces? cs <;> rfl
  | plain notQuote notBackslash visible =>
    refine ⟨.char c, ?_, fun ps => by rw [assemble?]⟩
    rw [List.singleton_append, pieces?.eq_def]
    have unmarked : ¬ c = backslash := notBackslash
    dsimp only
    rw [if_neg unmarked, if_neg]
    simp [quote, notQuote, visible]

theorem unescapeChars?_escapeChars (cs : List Char) :
    unescapeChars? (escapeChars cs) = some cs := by
  induction cs with
  | nil => simp [unescapeChars?, escapeChars, pieces?, assemble?]
  | cons c cs ih =>
    have front : escapeChars (c :: cs) = escapeChar c ++ escapeChars cs := rfl
    obtain ⟨p, read, means⟩ := (escapeForm_escapeChar c).exists_piece (escapeChars cs)
    obtain ⟨ps, pieces, assembled⟩ := Option.bind_eq_some_iff.mp ih
    rw [unescapeChars?, front, read, pieces]
    simp [means, assembled]

@[simp] theorem unescape?_escape (s : String) : unescape? (escape s) = some s := by
  rw [unescape?, escape, String.toList_ofList, unescapeChars?_escapeChars, Option.map_some,
    String.ofList_toList]

/-- A text is read up to its closing quote. -/
theorem takeText_escape (s : String) (rest : List Char) :
    takeText ((escape s).toList ++ '"' :: rest) = some (.text (escape s), rest) := by
  have meant := unescapeChars?_escapeChars s.toList
  obtain ⟨ps, pieces, _⟩ := Option.bind_eq_some_iff.mp meant
  rw [escape, String.toList_ofList, takeText, takeRun_escapeChars]
  simp [pieces]

end BasicBlocks.Json
