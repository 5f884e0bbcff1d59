import BasicBlocks.Json.Number
import BasicBlocks.Json.Reader
import BasicBlocks.Proofs.Escapes
import BasicBlocks.Proofs.Numerals

/-!
# Written documents

A document whose numbers are words in decimal and whose texts are escaped is read back from its
compact and from its pretty form. Both forms are its tokens with white space put between some of
them. Only a number has to be set off from what comes next, and a comma, a closing bracket or a new
line comes next to every value.
-/

namespace BasicBlocks.Json

open Numeral

/-! ## Numbers -/

theorem digitChar_digit {d : Nat} (small : d < 10) : isDigit (digitChar d) = true := by
  have all : ∀ d < 10, isDigit (digitChar d) = true := by decide
  exact all d small

theorem isDigit_of_mem_writeChars {n : Nat} : ∀ c ∈ writeChars 10 n, isDigit c = true := by
  unfold writeChars
  induction n using digits.induct 10 with
  | case1 n single =>
    rw [digits, dif_pos single]
    simpa using digitChar_digit (d := n) (by omega)
  | case2 n several ih =>
    have last := digitChar_digit (d := n % 10) (by omega)
    rw [digits, dif_neg several, List.map_append]
    intro c hc
    rcases List.mem_append.mp hc with front | back
    · exact ih c front
    · rwa [List.mem_singleton.mp back]

/-- Only the digits of zero begin with a zero. -/
theorem writeChars_leading {n : Nat} (positive : 0 < n) :
    ∃ d rest, 0 < d ∧ d < 10 ∧ writeChars 10 n = digitChar d :: rest := by
  unfold writeChars
  induction n using digits.induct 10 with
  | case1 n single =>
    rw [digits, dif_pos single]
    exact ⟨n, [], positive, by omega, rfl⟩
  | case2 n several ih =>
    obtain ⟨d, rest, nonzero, small, front⟩ := ih (by omega)
    rw [digits, dif_neg several, List.map_append, front]
    exact ⟨d, _, nonzero, small, rfl⟩

/-- What may come next to a number. -/
def EndsNumber (cs : List Char) : Prop :=
  ∀ c ∈ cs.head?, isDigit c = false ∧ c ≠ '.' ∧ isExponentMark c = false

theorem endsNumber_nil : EndsNumber [] := fun _ none => nomatch none

theorem endsNumber_cons_iff {c : Char} {cs : List Char} :
    EndsNumber (c :: cs) ↔ isDigit c = false ∧ c ≠ '.' ∧ isExponentMark c = false := by
  simp [EndsNumber]

instance : (cs : List Char) → Decidable (EndsNumber cs)
  | [] => .isTrue endsNumber_nil
  | _ :: _ => decidable_of_iff' _ endsNumber_cons_iff

theorem EndsNumber.append {cs cs' : List Char} (ends : EndsNumber cs) (ends' : EndsNumber cs') :
    EndsNumber (cs ++ cs') := by
  cases cs with
  | nil => exact ends'
  | cons => exact ends

theorem EndsNumber.blank {space cs : List Char} (blank : ∀ c ∈ space, isSpace c = true)
    (ends : EndsNumber cs) : EndsNumber (space ++ cs) := by
  cases space with
  | nil => exact ends
  | cons c space =>
    have first := blank c List.mem_cons_self
    simp only [isSpace, Bool.or_eq_true, decide_eq_true_eq] at first
    rintro _ ⟨⟩
    rcases first with ((rfl | rfl) | rfl) | rfl
    all_goals decide

theorem takeDigits_append {digits cs : List Char} (filled : digits ≠ [])
    (all : ∀ c ∈ digits, isDigit c = true) (ends : EndsNumber cs) :
    takeDigits (digits ++ cs) = some (digits, cs) := by
  have taken : cs.takeWhile isDigit = [] ∧ cs.dropWhile isDigit = cs := by
    cases cs with
    | nil => exact ⟨rfl, rfl⟩
    | cons c rest => simp [(ends c rfl).1]
  rw [takeDigits, List.takeWhile_append_of_pos all, List.dropWhile_append_of_pos all, taken.1,
    taken.2, List.append_nil]
  simp [filled]

theorem takeWhole_writeChars (n : Nat) {cs : List Char} (ends : EndsNumber cs) :
    takeWhole (writeChars 10 n ++ cs) = some (writeChars 10 n, cs) := by
  rcases Nat.eq_zero_or_pos n with rfl | positive
  · have zero : writeChars 10 0 = ['0'] := by simp [writeChars, digits, digitChar]
    rw [zero]
    rfl
  · obtain ⟨d, rest, nonzero, small, digits⟩ := writeChars_leading positive
    have notZero : digitChar d ≠ '0' := by interval_cases d <;> decide
    have all := isDigit_of_mem_writeChars (n := n)
    rw [digits] at all ⊢
    rw [List.cons_append, takeWhole]
    · exact takeDigits_append (List.cons_ne_nil _ _) all ends
    · simpa using notZero

theorem takeFraction_of_ends {cs : List Char} (ends : EndsNumber cs) :
    takeFraction cs = some ([], cs) := by
  cases cs with
  | nil => rfl
  | cons c rest =>
    rw [takeFraction]
    simpa using (ends c rfl).2.1

theorem takeExponent_of_ends {cs : List Char} (ends : EndsNumber cs) :
    takeExponent cs = some ([], cs) := by
  cases cs with
  | nil => rfl
  | cons c rest => simp [takeExponent, (ends c rfl).2.2]

theorem mem_digits_of_isDigit {c : Char} (h : isDigit c = true) : c ∈ "0123456789".toList := by
  have range : 48 ≤ c.toNat ∧ c.toNat ≤ 57 := by simpa [isDigit] using h
  rw [← Char.ofNat_toNat c]
  generalize c.toNat = n at range
  obtain ⟨lo, hi⟩ := range
  interval_cases n <;> decide

theorem exists_digit_writeChars (n : Nat) :
    ∃ c rest, writeChars 10 n = c :: rest ∧ c ∈ "0123456789".toList := by
  obtain ⟨c, rest, shape⟩ :=
    List.exists_cons_of_ne_nil (spells_writeChars (by decide : 2 ≤ 10) n).ne_nil
  have digit := isDigit_of_mem_writeChars (n := n) c (by simp [shape])
  exact ⟨c, rest, shape, mem_digits_of_isDigit digit⟩

theorem takeSign_writeChars (n : Nat) (cs : List Char) :
    takeSign (writeChars 10 n ++ cs) = ([], writeChars 10 n ++ cs) := by
  obtain ⟨c, rest, shape, digit⟩ := exists_digit_writeChars n
  have all : "0123456789".toList.all (· ≠ '-') = true := by decide
  rw [shape, List.cons_append, takeSign]
  simpa using List.all_eq_true.mp all c digit

theorem takeNumber_writeChars (n : Nat) {cs : List Char} (ends : EndsNumber cs) :
    takeNumber (writeChars 10 n ++ cs) = some (.number (decimal n), cs) := by
  simp [takeNumber, takeSign_writeChars, takeWhole_writeChars n ends, takeFraction_of_ends ends,
    takeExponent_of_ends ends, decimal]

/-! ## Tokens -/

/-- Tokens of written documents. -/
inductive Token.IsWritten : Token → Prop
  | openBrace : IsWritten .openBrace
  | closeBrace : IsWritten .closeBrace
  | openBracket : IsWritten .openBracket
  | closeBracket : IsWritten .closeBracket
  | comma : IsWritten .comma
  | colon : IsWritten .colon
  | null : IsWritten .null
  | bool (value : Bool) : IsWritten (.bool value)
  | number (n : Nat) : IsWritten (.number (decimal n))
  | text (s : String) : IsWritten (.text (escape s))

def Token.isNumber : Token → Bool
  | .number _ => true
  | _ => false

theorem takeToken_digit {c : Char} (h : c ∈ "0123456789".toList) (rest : List Char) :
    isSpace c = false ∧ takeToken c rest = takeNumber (c :: rest) := by
  have cases : c ∈ ['0', '1', '2', '3', '4', '5', '6', '7', '8', '9'] := h
  simp only [List.mem_cons, List.not_mem_nil, or_false] at cases
  rcases cases with rfl | rfl | rfl | rfl | rfl | rfl | rfl | rfl | rfl | rfl
  all_goals exact ⟨by decide, by simp [takeToken]⟩

/-- A token is cut off at its end. -/
theorem Token.IsWritten.takeToken {t : Token} (h : t.IsWritten) {cs : List Char}
    (ends : t.isNumber = true → EndsNumber cs) :
    ∃ c rest, t.written.toList = c :: rest ∧ isSpace c = false ∧
      Json.takeToken c (rest ++ cs) = some (t, cs) := by
  cases h with
  | openBrace => exact ⟨_, _, rfl, rfl, rfl⟩
  | closeBrace => exact ⟨_, _, rfl, rfl, rfl⟩
  | openBracket => exact ⟨_, _, rfl, rfl, rfl⟩
  | closeBracket => exact ⟨_, _, rfl, rfl, rfl⟩
  | comma => exact ⟨_, _, rfl, rfl, rfl⟩
  | colon => exact ⟨_, _, rfl, rfl, rfl⟩
  | null => exact ⟨_, _, rfl, rfl, rfl⟩
  | bool value => cases value <;> exact ⟨_, _, rfl, rfl, rfl⟩
  | number n =>
    obtain ⟨c, rest, shape, digit⟩ := exists_digit_writeChars n
    obtain ⟨visible, taken⟩ := takeToken_digit digit (rest ++ cs)
    refine ⟨c, rest, by simp [written, decimal, shape], visible, ?_⟩
    rw [taken, ← List.cons_append, ← shape]
    exact takeNumber_writeChars n (ends rfl)
  | text s =>
    refine ⟨'"', (escape s).toList ++ ['"'], by simp [written], by decide, ?_⟩
    rw [List.append_assoc, List.singleton_append]
    exact takeText_escape s cs

/-! ## White space -/

/-- Characters that hold the tokens, with white space anywhere between them. -/
inductive Spaced : List Token → List Char → Prop
  | done : Spaced [] []
  | space {ts c cs} (blank : isSpace c = true) (rest : Spaced ts cs) : Spaced ts (c :: cs)
  | token {t ts cs} (written : t.IsWritten) (ends : t.isNumber = true → EndsNumber cs)
      (rest : Spaced ts cs) : Spaced (t :: ts) (t.written.toList ++ cs)

theorem spaced_blank {space : List Char} (blank : ∀ c ∈ space, isSpace c = true) :
    Spaced [] space := by
  induction space with
  | nil => exact .done
  | cons c space ih =>
    obtain ⟨first, others⟩ := List.forall_mem_cons.mp blank
    exact .space first (ih others)

theorem Spaced.lexWithin {ts : List Token} {cs : List Char} (h : Spaced ts cs) {n : Nat}
    (enough : cs.length ≤ n) : Json.lexWithin n cs = some ts := by
  induction h generalizing n with
  | done => cases n <;> rfl
  | space blank _ ih =>
    cases n with
    | zero => cases enough
    | succ n => rw [Json.lexWithin, if_pos blank, ih (Nat.le_of_succ_le_succ enough)]
  | @token t ts cs written ends _ ih =>
    obtain ⟨c, rest, shape, visible, taken⟩ := written.takeToken ends
    rw [shape, List.cons_append] at enough ⊢
    cases n with
    | zero => cases enough
    | succ n =>
      have shorter : cs.length ≤ n := by
        simp only [List.length_cons, List.length_append] at enough
        omega
      rw [Json.lexWithin, if_neg (by simp [visible]), taken]
      dsimp only
      rw [ih shorter]
      rfl

theorem Spaced.lex {ts : List Token} {s : String} (h : Spaced ts s.toList) :
    Json.lex s = some ts := h.lexWithin (Nat.le_refl _)

/-- Characters that hold the tokens in front of anything that ends a number. -/
def Holds (cs : List Char) (ts : List Token) : Prop :=
  ∀ cs' ts', EndsNumber cs' → Spaced ts' cs' → Spaced (ts ++ ts') (cs ++ cs')

namespace Holds

variable {cs cs' : List Char} {ts ts' : List Token}

theorem nil : Holds [] [] := fun _ _ _ rest => rest

theorem token {t : Token} (written : t.IsWritten) : Holds t.written.toList [t] :=
  fun _ _ ends rest => .token written (fun _ => ends) rest

/-- Marks need not be set off. -/
theorem mark {t : Token} (written : t.IsWritten) (notNumber : t.isNumber = false)
    (h : Holds cs ts) : Holds (t.written.toList ++ cs) (t :: ts) := by
  intro after more ends rest
  rw [List.append_assoc]
  exact .token written (fun number => by simp [notNumber] at number) (h _ _ ends rest)

theorem blank (space : List Char) (blank : ∀ c ∈ space, isSpace c = true) (h : Holds cs ts) :
    Holds (space ++ cs) ts := by
  induction space with
  | nil => exact h
  | cons c space ih =>
    obtain ⟨first, others⟩ := List.forall_mem_cons.mp blank
    exact fun _ _ ends rest => .space first (ih others _ _ ends rest)

theorem append (h : Holds cs ts) (ends : EndsNumber cs') (h' : Holds cs' ts') :
    Holds (cs ++ cs') (ts ++ ts') := by
  intro after more endsAfter rest
  rw [List.append_assoc, List.append_assoc]
  exact h _ _ (ends.append endsAfter) (h' _ _ endsAfter rest)

end Holds

/-! ## Both forms -/

/-- Documents that values are written as. -/
inductive IsWritten : Json → Prop
  | null : IsWritten .null
  | bool (value : Bool) : IsWritten (.bool value)
  | number (n : Nat) : IsWritten (.number (decimal n))
  | text (s : String) : IsWritten (.text (escape s))
  | array {elements : List Json} (each : ∀ j ∈ elements, IsWritten j) :
      IsWritten (.array elements)
  | object {members : List (String × Json)} (names : ∀ m ∈ members, ∃ s, m.1 = escape s)
      (each : ∀ m ∈ members, IsWritten m.2) : IsWritten (.object members)

/-- Elements after the first, each written in some way after a comma and white space. -/
def afterCommas {α : Type} (space : List Char) (write : α → List Char) (rest : List α) :
    List Char := rest.flatMap fun a => ',' :: space ++ write a

theorem endsNumber_afterCommas {α : Type} (space : List Char) (write : α → List Char)
    (rest : List α) : EndsNumber (afterCommas space write rest) := by
  cases rest with
  | nil => exact endsNumber_nil
  | cons a rest =>
    intro c hc
    obtain rfl : ',' = c := by simpa [afterCommas] using hc
    decide

/-- A member with some white space before its value. -/
def memberChars (gap : List Char) (write : Json → List Char) (m : String × Json) : List Char :=
  '"' :: m.1.toList ++ '"' :: ':' :: gap ++ write m.2

section Forms

variable {space gap : List Char} (write : Json → List Char)

theorem holds_elementTokens (blank : ∀ c ∈ space, isSpace c = true) {rest : List Json}
    (each : ∀ j ∈ rest, Holds (write j) j.tokens) :
    Holds (afterCommas space write rest) (elementTokens rest) := by
  induction rest with
  | nil => exact .nil
  | cons j rest ih =>
    obtain ⟨first, others⟩ := List.forall_mem_cons.mp each
    have value := (first.append (endsNumber_afterCommas _ _ _) (ih others)).blank space blank
    simpa [afterCommas, elementTokens, Token.written] using value.mark .comma rfl

theorem holds_member (blank : ∀ c ∈ gap, isSpace c = true) {m : String × Json}
    (name : ∃ s, m.1 = escape s) (value : Holds (write m.2) m.2.tokens) :
    Holds (memberChars gap write m) (.text m.1 :: .colon :: m.2.tokens) := by
  obtain ⟨s, name⟩ := name
  have named := ((value.blank gap blank).mark .colon rfl).mark (.text s) rfl
  rw [← name] at named
  simpa [memberChars, Token.written] using named

theorem holds_memberTokens (blank : ∀ c ∈ space, isSpace c = true)
    (blankGap : ∀ c ∈ gap, isSpace c = true) {rest : List (String × Json)}
    (names : ∀ m ∈ rest, ∃ s, m.1 = escape s)
    (each : ∀ m ∈ rest, Holds (write m.2) m.2.tokens) :
    Holds (afterCommas space (memberChars gap write) rest) (memberTokens rest) := by
  induction rest with
  | nil => exact .nil
  | cons m rest ih =>
    obtain ⟨name, names⟩ := List.forall_mem_cons.mp names
    obtain ⟨first, others⟩ := List.forall_mem_cons.mp each
    have value := ((holds_member write blankGap name first).append (endsNumber_afterCommas _ _ _)
      (ih names others)).blank space blank
    simpa [afterCommas, memberTokens, Token.written] using value.mark .comma rfl

/-- White space may stand inside the brackets. -/
theorem holds_array (blank : ∀ c ∈ space, isSpace c = true) {close : List Char}
    (blankClose : ∀ c ∈ close, isSpace c = true) {first : Json} {rest : List Json}
    (each : ∀ j ∈ first :: rest, Holds (write j) j.tokens) :
    Holds ('[' :: space ++ write first ++ afterCommas space write rest ++ close ++ [']'])
      (tokens (.array (first :: rest))) := by
  obtain ⟨first, others⟩ := List.forall_mem_cons.mp each
  have bracket := (Holds.token .closeBracket).blank close blankClose
  have ends : EndsNumber (close ++ [']']) := .blank blankClose (by decide)
  have inner := (holds_elementTokens write blank others).append ends bracket
  have all := (first.append ((endsNumber_afterCommas _ _ _).append ends) inner).blank space blank
  simpa [tokens, Token.written] using all.mark .openBracket rfl

theorem holds_object (blank : ∀ c ∈ space, isSpace c = true)
    (blankGap : ∀ c ∈ gap, isSpace c = true) {close : List Char}
    (blankClose : ∀ c ∈ close, isSpace c = true) {first : String × Json}
    {rest : List (String × Json)} (names : ∀ m ∈ first :: rest, ∃ s, m.1 = escape s)
    (each : ∀ m ∈ first :: rest, Holds (write m.2) m.2.tokens) :
    Holds ('\x7b' :: space ++ memberChars gap write first ++
        afterCommas space (memberChars gap write) rest ++ close ++ ['\x7d'])
      (tokens (.object (first :: rest))) := by
  obtain ⟨name, names⟩ := List.forall_mem_cons.mp names
  obtain ⟨value, others⟩ := List.forall_mem_cons.mp each
  have brace := (Holds.token .closeBrace).blank close blankClose
  have ends : EndsNumber (close ++ ['\x7d']) := .blank blankClose (by decide)
  have inner := (holds_memberTokens write blank blankGap names others).append ends brace
  have all := ((holds_member write blankGap name value).append
    ((endsNumber_afterCommas _ _ _).append ends) inner).blank space blank
  simpa [tokens, Token.written] using all.mark .openBrace rfl

end Forms

/-- Tokens one after the other. -/
def writtenTokens (ts : List Token) : List Char := ts.flatMap fun t => t.written.toList

@[simp] theorem writtenTokens_nil : writtenTokens [] = [] := rfl

@[simp] theorem writtenTokens_cons (t : Token) (ts : List Token) :
    writtenTokens (t :: ts) = t.written.toList ++ writtenTokens ts := rfl

@[simp] theorem writtenTokens_append (ts ts' : List Token) :
    writtenTokens (ts ++ ts') = writtenTokens ts ++ writtenTokens ts' := List.flatMap_append

theorem toList_compact (j : Json) : j.compact.toList = writtenTokens j.tokens := by
  simp [compact, writtenTokens, List.flatMap_def, List.map_map]
  rfl

/-- Elements as the compact form has them. -/
def compactChars (j : Json) : List Char := writtenTokens j.tokens

theorem writtenTokens_elementTokens (rest : List Json) :
    writtenTokens (elementTokens rest) = afterCommas [] compactChars rest := by
  induction rest with
  | nil => rfl
  | cons j rest ih => simp [elementTokens, Token.written, ih, afterCommas, compactChars]

theorem writtenTokens_memberTokens (rest : List (String × Json)) :
    writtenTokens (memberTokens rest) = afterCommas [] (memberChars [] compactChars) rest := by
  induction rest with
  | nil => rfl
  | cons m rest ih =>
    simp [memberTokens, Token.written, ih, afterCommas, memberChars, compactChars]

theorem IsWritten.holds_compact {j : Json} (h : j.IsWritten) : Holds (compactChars j) j.tokens := by
  have alone : ∀ t : Token, t.IsWritten → Holds (writtenTokens [t]) [t] := by
    intro t written
    simpa using Holds.token written
  have empty : ∀ c ∈ ([] : List Char), isSpace c = true := fun _ none => nomatch none
  induction h with
  | null => exact alone _ .null
  | bool value => exact alone _ (.bool value)
  | number n => exact alone _ (.number n)
  | text s => exact alone _ (.text s)
  | @array elements _ ih =>
    cases elements with
    | nil => exact (Holds.token .closeBracket).mark .openBracket rfl
    | cons first rest =>
      have held := holds_array compactChars empty empty ih
      rw [← writtenTokens_elementTokens] at held
      simpa [compactChars, tokens, Token.written] using held
  | @object members names _ ih =>
    cases members with
    | nil => exact (Holds.token .closeBrace).mark .openBrace rfl
    | cons first rest =>
      have held := holds_object compactChars empty empty empty names ih
      rw [← writtenTokens_memberTokens] at held
      simpa [compactChars, tokens, Token.written, memberChars] using held

theorem isSpace_newLine (level : Nat) : ∀ c ∈ (newLine level).toList, isSpace c = true := by
  intro c hc
  have cases : c = '\n' ∨ ¬ level = 0 ∧ c = ' ' := by simpa [newLine] using hc
  rcases cases with rfl | ⟨_, rfl⟩ <;> decide

/-- Elements as the pretty form has them. -/
def prettyChars (level : Nat) (j : Json) : List Char := (prettyAt level j).toList

theorem toList_prettyElements (level : Nat) (rest : List Json) :
    (prettyElements level rest).toList =
      afterCommas (newLine level).toList (prettyChars level) rest := by
  induction rest with
  | nil => rfl
  | cons j rest ih => simp [prettyElements, ih, afterCommas, prettyChars]

theorem toList_prettyMembers (level : Nat) (rest : List (String × Json)) :
    (prettyMembers level rest).toList =
      afterCommas (newLine level).toList (memberChars [' '] (prettyChars level)) rest := by
  induction rest with
  | nil => rfl
  | cons m rest ih => simp [prettyMembers, ih, afterCommas, memberChars, prettyChars]

theorem IsWritten.holds_prettyAt {j : Json} (h : j.IsWritten) (level : Nat) :
    Holds (prettyChars level j) j.tokens := by
  have gap : ∀ c ∈ [' '], isSpace c = true := List.forall_mem_singleton.mpr rfl
  induction h generalizing level with
  | null => exact Holds.token .null
  | bool value => cases value <;> exact Holds.token (.bool _)
  | number n => exact Holds.token (.number n)
  | text s => simpa [prettyChars, prettyAt, tokens, Token.written] using Holds.token (.text s)
  | @array elements _ ih =>
    cases elements with
    | nil =>
      have held := (Holds.token .closeBracket).mark .openBracket rfl
      simpa [prettyChars, prettyAt, tokens, Token.written] using held
    | cons first rest =>
      have held := holds_array (prettyChars (level + 1)) (isSpace_newLine (level + 1))
        (isSpace_newLine level) fun j hj => ih j hj (level + 1)
      rw [← toList_prettyElements] at held
      simpa [prettyChars, prettyAt] using held
  | @object members names _ ih =>
    cases members with
    | nil =>
      have held := (Holds.token .closeBrace).mark .openBrace rfl
      simpa [prettyChars, prettyAt, tokens, Token.written] using held
    | cons first rest =>
      have held := holds_object (prettyChars (level + 1)) (isSpace_newLine (level + 1)) gap
        (isSpace_newLine level) names fun m hm => ih m hm (level + 1)
      rw [← toList_prettyMembers] at held
      simpa [prettyChars, prettyAt, memberChars] using held

/-! ## Reading -/

theorem run_cons (s : State) (t : Token) (ts : List Token) :
    run s (t :: ts) = (step s t).bind fun s => run s ts := by
  rw [run]
  cases step s t <;> rfl

/-- Where an array has just been opened, its first element is read as any other. -/
theorem run_firstElement (j : Json) (outer : List Open) (ts : List Token) :
    run (.firstElement outer) (j.tokens ++ ts) =
      run (.value (.array [] :: outer)) (j.tokens ++ ts) := by
  have begins : ∃ t rest, j.tokens = t :: rest ∧ t ≠ .closeBracket := by
    rcases j with _ | _ | _ | _ | ⟨_ | _⟩ | ⟨_ | _⟩
    all_goals exact ⟨_, _, by simp only [tokens]; rfl, by simp⟩
  obtain ⟨t, rest, begins, notClosed⟩ := begins
  rw [begins, List.cons_append, run_cons, run_cons, step, step]
  exact notClosed

mutual

theorem run_tokens : ∀ (j : Json) (outer : List Open) (ts : List Token),
    run (.value outer) (j.tokens ++ ts) = run (.complete j outer) ts
  | .null, _, _ => rfl
  | .bool _, _, _ => rfl
  | .number _, _, _ => rfl
  | .text _, _, _ => rfl
  | .array [], _, _ => rfl
  | .object [], _, _ => rfl
  | .array (first :: rest), outer, ts => by
    have value := run_tokens first (.array [] :: outer) (elementTokens rest ++ .closeBracket :: ts)
    rw [← run_firstElement, run_elementTokens rest] at value
    simpa [tokens, run_cons, step, beginValue] using value
  | .object ((key, value) :: rest), outer, ts => by
    have first := run_tokens value (.object [] key :: outer)
      (memberTokens rest ++ .closeBrace :: ts)
    rw [run_memberTokens rest] at first
    simpa [tokens, run_cons, step, beginValue] using first

theorem run_elementTokens : ∀ (rest : List Json) (value : Json) (before : List Json)
    (outer : List Open) (ts : List Token),
    run (.complete value (.array before :: outer)) (elementTokens rest ++ .closeBracket :: ts) =
      run (.complete (.array (before.reverse ++ value :: rest)) outer) ts
  | [], value, before, outer, ts => by simp [elementTokens, run_cons, step]
  | first :: rest, value, before, outer, ts => by
    have next := run_tokens first (.array (value :: before) :: outer)
      (elementTokens rest ++ .closeBracket :: ts)
    rw [run_elementTokens rest] at next
    simpa [elementTokens, run_cons, step] using next

theorem run_memberTokens : ∀ (rest : List (String × Json)) (name : String) (value : Json)
    (before : List (String × Json)) (outer : List Open) (ts : List Token),
    run (.complete value (.object before name :: outer)) (memberTokens rest ++ .closeBrace :: ts) =
      run (.complete (.object (before.reverse ++ (name, value) :: rest)) outer) ts
  | [], name, value, before, outer, ts => by simp [memberTokens, run_cons, step]
  | (key, first) :: rest, name, value, before, outer, ts => by
    have next := run_tokens first (.object ((name, value) :: before) key :: outer)
      (memberTokens rest ++ .closeBrace :: ts)
    rw [run_memberTokens rest] at next
    simpa [memberTokens, run_cons, step] using next

end

theorem ofTokens?_tokens (j : Json) : ofTokens? j.tokens = some j := by
  have complete := run_tokens j [] []
  rw [List.append_nil] at complete
  rw [ofTokens?, complete]
  rfl

theorem Spaced.read? {j : Json} {s : String} (h : Spaced j.tokens s.toList) :
    Json.read? s = some j := by
  rw [Json.read?, h.lex, Option.bind_some, ofTokens?_tokens]

theorem IsWritten.read?_compact {j : Json} (h : j.IsWritten) : Json.read? j.compact = some j := by
  apply Spaced.read?
  have spaced := h.holds_compact [] [] endsNumber_nil .done
  rwa [List.append_nil, List.append_nil, compactChars, ← toList_compact] at spaced

/-- White space may come after the document. -/
theorem IsWritten.read?_pretty_append {j : Json} (h : j.IsWritten) (space : String)
    (blank : ∀ c ∈ space.toList, isSpace c = true) :
    Json.read? (j.pretty ++ space) = some j := by
  apply Spaced.read?
  have ends : EndsNumber space.toList := by
    simpa using EndsNumber.blank blank endsNumber_nil
  have all := h.holds_prettyAt 0 _ _ ends (spaced_blank blank)
  rwa [List.append_nil, prettyChars, ← String.toList_append] at all

theorem IsWritten.read?_pretty {j : Json} (h : j.IsWritten) : Json.read? j.pretty = some j := by
  simpa using h.read?_pretty_append "" (by simp)

end BasicBlocks.Json
