import Mathlib.Data.List.Basic
import Mathlib.Data.List.TakeWhile
import BasicBlocks.Proofs.Documents
import BasicBlocks.Yaml.Lexer

/-!
# Scalars in flow collections

Scalars as JSON writes them, read in YAML. A text of visible characters stands on one line between
double quotes, and is kept with all its blanks. A number or a truth value is a plain scalar, which
ends at the mark that comes next, before or after white space.
-/

namespace BasicBlocks.Yaml

/-- Printable ASCII. -/
def IsVisible (c : Char) : Prop := 0x20 ≤ c.toNat ∧ c.toNat ≤ 0x7e

instance : DecidablePred IsVisible := fun c =>
  decidable_of_iff (0x20 ≤ c.toNat ∧ c.toNat ≤ 0x7e) .rfl

/-- The characters of a text are looked at, and not all that there are. -/
instance (cs : List Char) : Decidable (∀ c ∈ cs, IsVisible c) :=
  decidable_of_iff (cs.Forall IsVisible) List.forall_iff_forall_mem

/-- White space as the pretty form has it. -/
def IsSpacing (space : List Char) : Prop := ∀ b ∈ space, b = ' ' ∨ b = '\n'

/-- A word goes on or ends with this character, but no gap does. -/
def IsSolid (c : Char) : Prop := isBlank c = false ∧ isBreak c = false

theorem IsVisible.isPrintable {c : Char} (h : IsVisible c) : isPrintable c = true := by
  obtain ⟨lower, upper⟩ := h
  simp [Yaml.isPrintable]
  omega

theorem IsVisible.isSolid {c : Char} (h : IsVisible c) (notBlank : c ≠ ' ') : IsSolid c := by
  obtain ⟨lower, upper⟩ := h
  refine ⟨?_, ?_⟩
  · have notTab : c ≠ '\t' := by
      rintro rfl
      exact absurd lower (by decide)
    simp [isBlank, notBlank, notTab]
  · simp [isBreak]
    omega

theorem isSpacing_nil : IsSpacing [] := fun _ none => nomatch none

/-! ## Cursors -/

/-- A place further on in the same line. -/
structure Cursor.Ahead (c c' : Cursor) : Prop where
  line : c'.position.line = c.position.line
  column : c.position.column ≤ c'.position.column
  index : c'.position.index + c'.rest.length = c.position.index + c.rest.length

namespace Cursor.Ahead

variable {c c' c'' : Cursor}

theorem refl (c : Cursor) : c.Ahead c := ⟨rfl, Nat.le_refl _, rfl⟩

theorem trans (h : c.Ahead c') (h' : c'.Ahead c'') : c.Ahead c'' :=
  ⟨h'.line.trans h.line, h.column.trans h'.column, h'.index.trans h.index⟩

theorem upTo {rest : List Char} (shorter : rest.length ≤ c.rest.length) :
    c.Ahead (c.upTo rest) := by
  refine ⟨rfl, Nat.le_add_right _ _, ?_⟩
  simp only [Cursor.upTo]
  omega

theorem skip {d : Char} {rest : List Char} (front : c.rest = d :: rest) : c.Ahead (c.skip 1) := by
  refine ⟨rfl, Nat.le_succ _, ?_⟩
  simp only [Cursor.skip, Position.next, front, List.drop_one, List.tail_cons, List.length_cons]
  omega

end Cursor.Ahead

theorem rest_skip {c : Cursor} {d : Char} {rest : List Char} (front : c.rest = d :: rest) :
    (c.skip 1).rest = rest := by
  simp [Cursor.skip, front]

/-- No document mark begins with another character. -/
theorem atDocumentMark_of_front {c : Cursor} {d : Char} {rest : List Char}
    (front : c.rest = d :: rest) (notDash : d ≠ '-') (notDot : d ≠ '.') :
    atDocumentMark c = false := by
  unfold atDocumentMark
  rw [front]
  split
  next _ _ same => exact absurd (List.cons.inj same).1 notDash
  next _ _ same => exact absurd (List.cons.inj same).1 notDot
  next => exact Bool.and_false _

/-! ## Gaps -/

theorem takeBreak?_of_isSolid {c : Cursor} {d : Char} {rest : List Char} (solid : IsSolid d)
    (front : c.rest = d :: rest) : takeBreak? c = none := by
  unfold takeBreak?
  rw [front]
  split
  next same =>
    obtain ⟨rfl, _⟩ := List.cons.inj same
    exact absurd solid.2 (by decide)
  next same =>
    obtain ⟨rfl, rfl⟩ := List.cons.inj same
    rw [if_neg (by simp [solid.2])]
  next => rfl

/-- A gap ends at the first solid character. Blanks on one line are kept. -/
theorem takeGap_spacing (tabAllowed : Nat → Bool) {d : Char} (solid : IsSolid d)
    {space rest : List Char} (spacing : IsSpacing space) {n : Nat} (enough : space.length ≤ n)
    (gap : Gap) {c : Cursor} (front : c.rest = space ++ d :: rest) :
    ∃ gap' c', takeGap tabAllowed n gap c = some (gap', c') ∧ c'.rest = d :: rest ∧
      ((∀ b ∈ space, b = ' ') → gap.breaks = [] →
        gap' = ⟨gap.blanks ++ space, []⟩ ∧ c.Ahead c') := by
  induction space generalizing n gap c with
  | nil =>
    rw [List.nil_append] at front
    have taken : takeGap tabAllowed n gap c = some (gap, c) := by
      cases n with
      | zero => rfl
      | succ n =>
        rw [takeGap, takeBreak?_of_isSolid solid front, front]
        simp [solid.1]
    refine ⟨gap, c, taken, front, fun _ unbroken => ⟨?_, .refl c⟩⟩
    rw [List.append_nil, ← unbroken]
  | cons b space ih =>
    obtain ⟨first, others⟩ := List.forall_mem_cons.mp spacing
    rw [List.cons_append] at front
    cases n with
    | zero => exact absurd enough (by simp)
    | succ n =>
      have shorter : space.length ≤ n := by simpa using enough
      rcases first with rfl | rfl
      · -- A space is kept if no line break precedes it.
        have noBreak : takeBreak? c = none := by
          simp [takeBreak?, front, isBreak]
        have later := rest_skip front
        by_cases broken : gap.hasBreak = true
        · obtain ⟨gap', c', taken, ends, _⟩ := ih others shorter gap later
          refine ⟨gap', c', ?_, ends, fun _ unbroken => ?_⟩
          · rw [takeGap, noBreak, front]
            simp [isBlank, broken, taken]
          · simp [Gap.hasBreak, unbroken] at broken
        · have unbroken : gap.breaks = [] := by simpa [Gap.hasBreak] using broken
          obtain ⟨gap', c', taken, ends, kept⟩ := ih others shorter ⟨gap.blanks ++ [' '], []⟩ later
          refine ⟨gap', c', ?_, ends, fun blanks _ => ?_⟩
          · rw [takeGap, noBreak, front]
            simp [isBlank, broken, taken]
          · obtain ⟨same, ahead⟩ := kept (List.forall_mem_cons.mp blanks).2 rfl
            exact ⟨by simpa using same, (Cursor.Ahead.skip front).trans ahead⟩
      · have broken : takeBreak? c = some ('\n', ⟨space ++ d :: rest, c.position.newLine 1⟩) := by
          simp [takeBreak?, front, isBreak]
        obtain ⟨gap', c', taken, ends, _⟩ := ih others shorter ⟨[], gap.breaks ++ ['\n']⟩
          (c := ⟨space ++ d :: rest, c.position.newLine 1⟩) rfl
        refine ⟨gap', c', ?_, ends, fun blanks _ => ?_⟩
        · rw [takeGap, broken]
          exact taken
        · exact absurd (blanks '\n' List.mem_cons_self) (by decide)

/-! ## Texts -/

/-- A visible character is written by itself or after a backslash. -/
theorem escapeChar_of_isVisible {c : Char} (h : IsVisible c) :
    (Json.escapeChar c = ['\\', c] ∧ namedEscapes.lookup c = some c) ∨
      (Json.escapeChar c = [c] ∧ c ≠ '"' ∧ c ≠ '\\') := by
  by_cases quoted : c = '"'
  · subst quoted
    exact Or.inl ⟨rfl, rfl⟩
  · by_cases escaped : c = '\\'
    · subst escaped
      exact Or.inl ⟨rfl, rfl⟩
    · have low := h.1
      have control : ∀ d : Char, d.toNat < 0x20 → c ≠ d := by
        rintro _ small rfl
        omega
      have plain : Json.isControl c = false := by
        simp [Json.isControl]
        omega
      refine Or.inr ⟨?_, quoted, escaped⟩
      simp [Json.escapeChar, quoted, escaped, control '\n' (by decide), control '\r' (by decide),
        control '\t' (by decide), control '\x08' (by decide), control '\x0c' (by decide), plain]

/-- A word between quotes is read a character at a time. -/
theorem takeDoubleWord_escapeChars {word : List Char}
    (visible : ∀ c ∈ word, IsVisible c ∧ c ≠ ' ') (n : Nat) (rest : List Char) :
    takeDoubleWord (n + word.length) (Json.escapeChars word ++ rest) =
      (takeDoubleWord n rest).map fun r => (word ++ r.1, r.2) := by
  induction word with
  | nil =>
    have same : (fun r : List Char × WordEnd × List Char => ([] ++ r.1, r.2)) = id := rfl
    rw [same, Option.map_id]
    rfl
  | cons c word ih =>
    obtain ⟨⟨first, notBlank⟩, others⟩ := List.forall_mem_cons.mp visible
    have solid := first.isSolid notBlank
    have front : Json.escapeChars (c :: word) = Json.escapeChar c ++ Json.escapeChars word := rfl
    rw [front, List.append_assoc, List.length_cons, ← Nat.add_assoc]
    rcases escapeChar_of_isVisible first with ⟨escaped, meant⟩ | ⟨plain, notQuote, notBackslash⟩
    · have noEnd : atLineEnd (c :: (Json.escapeChars word ++ rest)) = false := solid.2
      have mark : isBlank '\\' = false ∧ isBreak '\\' = false := by decide
      rw [escaped, List.cons_append, List.cons_append, List.nil_append, takeDoubleWord,
        if_neg (by decide), mark.1, mark.2, if_neg (by decide), if_pos rfl, noEnd, takeEscape,
        meant, if_neg (by simp)]
      dsimp only
      rw [ih others, Option.map_map]
      rfl
    · rw [plain, List.cons_append, List.nil_append, takeDoubleWord, if_neg notQuote, solid.1,
        solid.2, if_neg (by decide), if_neg notBackslash, ih others, Option.map_map]
      rfl

theorem escapeChars_cons (c : Char) (cs : List Char) :
    Json.escapeChars (c :: cs) = Json.escapeChar c ++ Json.escapeChars cs := rfl

theorem escapeChars_append (cs cs' : List Char) :
    Json.escapeChars (cs ++ cs') = Json.escapeChars cs ++ Json.escapeChars cs' :=
  List.flatMap_append

theorem length_le_escapeChars (cs : List Char) : cs.length ≤ (Json.escapeChars cs).length := by
  induction cs with
  | nil => exact Nat.le_refl 0
  | cons c cs ih =>
    have written : 0 < (Json.escapeChar c).length := by
      have form := Json.escapeForm_escapeChar c
      generalize Json.escapeChar c = written at form
      cases form <;> exact Nat.succ_pos _
    rw [escapeChars_cons, List.length_append, List.length_cons]
    omega

theorem escapeChars_spaces {space : List Char} (blanks : ∀ b ∈ space, b = ' ') :
    Json.escapeChars space = space := by
  have same : ∀ b ∈ space, Json.escapeChar b = [b] := by
    intro b hb
    rw [blanks b hb]
    rfl
  rw [Json.escapeChars, List.flatMap_congr same, List.flatMap_singleton']

/-- After the blanks of a text comes a word or the closing quote. -/
theorem exists_solid_front {cs : List Char} (visible : ∀ c ∈ cs, IsVisible c)
    (notBlank : ' ' ∉ cs.head?) (rest : List Char) :
    ∃ d more, Json.escapeChars cs ++ '"' :: rest = d :: more ∧ IsSolid d := by
  cases cs with
  | nil => exact ⟨'"', rest, rfl, by decide, by decide⟩
  | cons c cs =>
    have first := visible c List.mem_cons_self
    have solid := first.isSolid fun same => notBlank (by simp [same])
    rw [escapeChars_cons, List.append_assoc]
    rcases escapeChar_of_isVisible first with ⟨escaped, _⟩ | ⟨plain, _⟩
    · rw [escaped]
      exact ⟨'\\', _, rfl, by decide, by decide⟩
    · rw [plain]
      exact ⟨c, _, rfl, solid⟩

/-- A text begins with a word, perhaps an empty one, with blanks after it. -/
theorem exists_word (cs : List Char) :
    ∃ word space later, cs = word ++ (space ++ later) ∧ (∀ c ∈ word, c ≠ ' ') ∧
      (∀ b ∈ space, b = ' ') ∧ (space = [] → later = []) ∧ ' ' ∉ later.head? := by
  refine ⟨cs.takeWhile (· ≠ ' '), (cs.dropWhile (· ≠ ' ')).takeWhile (· = ' '),
    (cs.dropWhile (· ≠ ' ')).dropWhile (· = ' '), ?_, ?_, ?_, ?_, ?_⟩
  · rw [List.takeWhile_append_dropWhile, List.takeWhile_append_dropWhile]
  · exact fun c hc => by simpa using List.mem_takeWhile_imp hc
  · exact fun b hb => by simpa using List.mem_takeWhile_imp hb
  · intro none
    cases tail : cs.dropWhile (· ≠ ' ') with
    | nil => rfl
    | cons b tail' =>
      have blank := List.head?_dropWhile_not (· ≠ ' ') cs
      rw [tail] at none blank
      simp at blank
      simp [blank] at none
  · have solid := List.head?_dropWhile_not (· = ' ') (cs.dropWhile (· ≠ ' '))
    intro blank
    rw [Option.mem_def] at blank
    rw [blank] at solid
    simp at solid

/-- A text is cut into words and blanks, and is put together again. -/
theorem takeQuotedFrom_escapeChars {cs : List Char} (visible : ∀ c ∈ cs, IsVisible c)
    (rest : List Char) {n : Nat} (enough : cs.length < n) (text : List Char) {c : Cursor}
    (front : c.rest = Json.escapeChars cs ++ '"' :: rest) (inLine : 0 < c.position.column) :
    ∃ c', takeQuotedFrom true n text c = some (text ++ cs, c') ∧ c'.rest = rest ∧ c.Ahead c' := by
  induction n generalizing cs text c with
  | zero => exact absurd enough (Nat.not_lt_zero _)
  | succ n ih =>
    obtain ⟨word, space, later, rfl, solid, blanks, ended, begins⟩ := exists_word cs
    have noMark : atDocumentMark c = false := by
      simp [atDocumentMark, Nat.pos_iff_ne_zero.mp inLine]
    have filled : c.rest.isEmpty = false := by
      rw [front]
      cases Json.escapeChars (word ++ (space ++ later)) <;> rfl
    have words : ∀ c ∈ word, IsVisible c ∧ c ≠ ' ' :=
      fun c hc => ⟨visible c (List.mem_append_left _ hc), solid c hc⟩
    rw [escapeChars_append, escapeChars_append, escapeChars_spaces blanks, List.append_assoc,
      List.append_assoc] at front
    -- The word is read with the characters that are left as its bound.
    have room := length_le_escapeChars word
    obtain ⟨m, bound⟩ : ∃ m, c.rest.length = m + 1 + word.length := by
      refine ⟨c.rest.length - 1 - word.length, ?_⟩
      rw [front]
      simp
      omega
    have shorter : ∀ rest',
        rest'.length ≤ (space ++ (Json.escapeChars later ++ '"' :: rest)).length →
          c.Ahead (c.upTo rest') := by
      intro rest' hrest
      refine .upTo (Nat.le_trans hrest ?_)
      rw [front]
      simp
    cases space with
    | nil =>
      obtain rfl := ended rfl
      have taken : takeQuotedWord true c.rest = some (word, .quote, rest) := by
        rw [takeQuotedWord, if_pos rfl, bound, front, takeDoubleWord_escapeChars words]
        simp [takeDoubleWord, Json.escapeChars]
      refine ⟨c.upTo rest, ?_, rfl, shorter rest (by simp; omega)⟩
      rw [takeQuotedFrom, noMark, filled, taken]
      simp
    | cons b space =>
      obtain rfl : b = ' ' := blanks b List.mem_cons_self
      have taken : takeQuotedWord true c.rest =
          some (word, .gap, ' ' :: space ++ (Json.escapeChars later ++ '"' :: rest)) := by
        rw [takeQuotedWord, if_pos rfl, bound, front, takeDoubleWord_escapeChars words]
        simp [takeDoubleWord, isBlank]
      have visibleLater : ∀ c ∈ later, IsVisible c := fun c hc =>
        visible c (List.mem_append_right _ (List.mem_append_right _ hc))
      obtain ⟨d, more, solidFront, isSolid⟩ := exists_solid_front visibleLater begins rest
      rw [solidFront] at taken front shorter
      obtain ⟨gap, c', gapTaken, ends, kept⟩ := takeGap_spacing (fun _ => true) isSolid
        (fun b hb => Or.inl (blanks b hb)) (by simp : (' ' :: space).length ≤
          (' ' :: space ++ d :: more).length) ⟨[], []⟩ (c := c.upTo (' ' :: space ++ d :: more)) rfl
      obtain ⟨rfl, ahead⟩ := kept blanks rfl
      have aheadLater := (shorter _ (Nat.le_refl _)).trans ahead
      obtain ⟨c'', taken', ends', ahead'⟩ := ih visibleLater (by simp at enough; omega)
        (text ++ word ++ ' ' :: space) (ends.trans solidFront.symm)
        (Nat.lt_of_lt_of_le inLine aheadLater.column)
      refine ⟨c'', ?_, ends', aheadLater.trans ahead'⟩
      rw [takeQuotedFrom, noMark, filled, taken]
      simp only [Bool.or_self, Bool.false_eq_true, if_false]
      rw [gapTaken]
      simpa [Gap.folded] using taken'

/-- A text is read up to its closing quote, on one line. -/
theorem takeQuoted_escape {s : String} (visible : ∀ c ∈ s.toList, IsVisible c) {c : Cursor}
    {rest : List Char} (front : c.rest = '"' :: (Json.escape s).toList ++ '"' :: rest) :
    ∃ c', takeQuoted true c = some (s.toList, c') ∧ c'.rest = rest ∧ c.Ahead c' := by
  rw [Json.escape, String.toList_ofList] at front
  have first := Cursor.Ahead.skip front
  have bound := length_le_escapeChars s.toList
  obtain ⟨c', taken, ends, ahead⟩ := takeQuotedFrom_escapeChars visible rest
    (n := c.rest.length + 1) (by rw [front]; simp; omega) [] (rest_skip front) (Nat.succ_pos _)
  exact ⟨c', taken, ends, first.trans ahead⟩

/-! ## Numbers and truth values -/

/-- The characters of decimal numbers, truth values and null. -/
def literalCharacters : List Char := "0123456789aeflnrstu".toList

/-- None of them ends a plain scalar, or is an indicator. -/
theorem plain_of_mem_literalCharacters {c : Char} (h : c ∈ literalCharacters) :
    IsSolid c ∧ c ≠ ':' ∧ isFlowIndicator c = false ∧ c ∉ Lexer.indicators ∧ c ≠ '.' ∧
      IsVisible c := by
  have all : ∀ c ∈ literalCharacters, (isBlank c = false ∧ isBreak c = false) ∧ c ≠ ':' ∧
      isFlowIndicator c = false ∧ c ∉ Lexer.indicators ∧ c ≠ '.' ∧ IsVisible c :=
    List.forall_iff_forall_mem.mp (by decide)
  exact all c h

/-- A comma or a closing bracket. -/
def IsCloser (c : Char) : Prop := c = ',' ∨ c = ']' ∨ c = '\x7d'

theorem IsCloser.isFlowIndicator {c : Char} (h : IsCloser c) : Yaml.isFlowIndicator c = true := by
  rcases h with rfl | rfl | rfl <;> decide

theorem IsCloser.isSolid {c : Char} (h : IsCloser c) : IsSolid c := by
  rcases h with rfl | rfl | rfl <;> exact ⟨by decide, by decide⟩

/-- A word that no indicator is part of goes on to its end. -/
theorem takePlainWord_append {word rest : List Char} (literal : ∀ c ∈ word, c ∈ literalCharacters)
    (ends : takePlainWord true rest = some ([], rest)) :
    takePlainWord true (word ++ rest) = some (word, rest) := by
  induction word with
  | nil => exact ends
  | cons c word ih =>
    obtain ⟨first, others⟩ := List.forall_mem_cons.mp literal
    obtain ⟨⟨notBlank, notBreak⟩, notColon, notFlow, _⟩ := plain_of_mem_literalCharacters first
    rw [List.cons_append, takePlainWord.eq_def]
    simp [notBlank, notBreak, notColon, notFlow, ih others]

theorem takePlainWord_closer {d : Char} (closes : IsCloser d) {space : List Char}
    (spacing : IsSpacing space) (rest : List Char) :
    takePlainWord true (space ++ d :: rest) = some ([], space ++ d :: rest) := by
  cases space with
  | nil =>
    have solid := closes.isSolid
    have notColon : d ≠ ':' := by
      rintro rfl
      exact absurd closes.isFlowIndicator (by decide)
    simp [takePlainWord, solid.1, solid.2, notColon, closes.isFlowIndicator]
  | cons b space =>
    rcases spacing b List.mem_cons_self with rfl | rfl <;> simp [takePlainWord, isBlank, isBreak]

/-- No word begins with a comma or a closing bracket. -/
theorem takePlainFrom_closer {d : Char} (closes : IsCloser d) (indent n : Nat) (text : List Char)
    (gap : Gap) {c : Cursor} {rest : List Char} (front : c.rest = d :: rest) :
    ∃ c', takePlainFrom true indent n text gap c = some (text, c', gap.hasBreak) ∧
      c'.rest = d :: rest := by
  cases n with
  | zero => exact ⟨c, rfl, front⟩
  | succ n =>
    have noMark : atDocumentMark c = false := by
      apply atDocumentMark_of_front front <;> rintro rfl <;>
        exact absurd closes.isFlowIndicator (by decide)
    have noComment : d ≠ '#' := by
      rintro rfl
      exact absurd closes.isFlowIndicator (by decide)
    have solid := closes.isSolid
    have taken := takePlainWord_closer closes isSpacing_nil rest
    rw [List.nil_append] at taken
    refine ⟨c.upTo (d :: rest), ?_, rfl⟩
    rw [takePlainFrom, noMark, front, taken]
    simp [noComment, solid.1, solid.2]

/-- A literal ends at the comma or bracket that comes next, with the white space before it. -/
theorem takePlain_literal {word space rest : List Char} {d : Char} (filled : word ≠ [])
    (literal : ∀ c ∈ word, c ∈ literalCharacters) (spacing : IsSpacing space)
    (closes : IsCloser d) (indent : Nat) {c : Cursor}
    (front : c.rest = word ++ (space ++ d :: rest)) :
    ∃ c' newLine, takePlain true indent c = some (word, c', newLine) ∧ c'.rest = d :: rest := by
  obtain ⟨first, more, rfl⟩ := List.exists_cons_of_ne_nil filled
  obtain ⟨_, _, _, noIndicator, notDot, _⟩ :=
    plain_of_mem_literalCharacters (literal first List.mem_cons_self)
  have noMark : atDocumentMark c = false := by
    refine atDocumentMark_of_front front ?_ notDot
    rintro rfl
    exact noIndicator (by decide)
  have noComment : first ≠ '#' := by
    rintro rfl
    exact noIndicator (by decide)
  have taken := takePlainWord_append literal (takePlainWord_closer closes spacing rest)
  cases space with
  | nil =>
    have solid := closes.isSolid
    refine ⟨c.upTo (d :: rest), false, ?_, rfl⟩
    rw [takePlain, takePlainFrom, noMark, front, taken]
    simp [noComment, solid.1, solid.2, Gap.folded, Gap.hasBreak]
  | cons b space =>
    have white : (isBlank b || isBreak b) = true := by
      rcases spacing b List.mem_cons_self with rfl | rfl <;> rfl
    obtain ⟨gap, later, gapTaken, ends, _⟩ := takeGap_spacing (fun column => indent ≤ column)
      closes.isSolid spacing (by simp : (b :: space).length ≤ (b :: space ++ d :: rest).length)
      ⟨[], []⟩ (c := c.upTo (b :: space ++ d :: rest)) rfl
    obtain ⟨c', ended, ends'⟩ := takePlainFrom_closer closes indent c.rest.length (first :: more)
      gap ends
    refine ⟨c', gap.hasBreak, ?_, ends'⟩
    rw [takePlain, takePlainFrom, noMark, ← ended, front, taken]
    simp only [List.cons_append] at gapTaken ⊢
    simp [-List.length_cons, -List.length_append, noComment, white, gapTaken, Gap.folded]

end BasicBlocks.Yaml
