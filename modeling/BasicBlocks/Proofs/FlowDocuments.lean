import BasicBlocks.Proofs.FlowTokens
import BasicBlocks.Yaml.Node

/-!
# Flow documents

A JSON document whose texts are of visible characters and whose names are short is a YAML document
as well, in its compact and in its pretty form, and YAML reads the same values in it.
-/

namespace BasicBlocks.Yaml

/-! ## Both forms -/

open Lexer

/-- Behind white space comes a comma or a closing bracket. -/
def Ends (more : List Char) : Prop :=
  ∃ space d after, IsSpacing space ∧ IsCloser d ∧ more = space ++ d :: after

theorem Ends.blank {space more : List Char} (spacing : IsSpacing space) (h : Ends more) :
    Ends (space ++ more) := by
  obtain ⟨space', d, after, spacing', closer, rfl⟩ := h
  refine ⟨space ++ space', d, after, ?_, closer, (List.append_assoc _ _ _).symm⟩
  intro b hb
  rcases List.mem_append.mp hb with early | late
  · exact spacing b early
  · exact spacing' b late

theorem Ends.closer {d : Char} (closer : IsCloser d) (after : List Char) : Ends (d :: after) :=
  ⟨[], d, after, isSpacing_nil, closer, rfl⟩

/-- The characters of printed documents. -/
def IsPrinted (c : Char) : Prop := IsVisible c ∨ c = '\n'

instance : DecidablePred IsPrinted := fun c => inferInstanceAs (Decidable (IsVisible c ∨ c = '\n'))

theorem IsPrinted.isPrintable {c : Char} (h : IsPrinted c) : isPrintable c = true := by
  rcases h with visible | rfl
  · exact visible.isPrintable
  · decide

/-- Characters that hold these tokens, so many flow collections deep. If they begin with a name, it
has to stand where a name may begin; inside a collection they are an item, or the end of one. -/
structure Lexes (depth : Nat) (named : Bool) (cs : List Char) (ts : List Token) : Prop where
  printed : ∀ c ∈ cs, IsPrinted c
  leads : ∀ before more l, depth = 0 ∨ Ends more → (named = true → l.keyAllowed = true) →
    Inside depth before (cs ++ more) l → ∃ l', Leads l l' ∧ Inside depth (before ++ ts) more l'

variable {depth : Nat} {named : Bool} {cs cs' : List Char} {ts ts' : List Token}

theorem lexes_nil : Lexes depth named [] [] where
  printed := fun _ none => nomatch none
  leads := fun _ _ l _ _ inside => ⟨l, .refl l, by simpa using inside⟩

theorem Lexes.append (h : Lexes depth named cs ts)
    (ends : ∀ more, Ends more → Ends (cs' ++ more)) (h' : Lexes depth false cs' ts') :
    Lexes depth named (cs ++ cs') (ts ++ ts') where
  printed := by
    intro c hc
    rcases List.mem_append.mp hc with early | late
    · exact h.printed c early
    · exact h'.printed c late
  leads := by
    intro before more l endsMore allowed inside
    rw [List.append_assoc] at inside
    obtain ⟨l₁, leads, inside₁⟩ :=
      h.leads before _ l (endsMore.imp_right (ends more)) allowed inside
    obtain ⟨l₂, leads', inside₂⟩ := h'.leads _ more l₁ endsMore (fun no => nomatch no) inside₁
    exact ⟨l₂, leads.trans leads', by rwa [List.append_assoc] at inside₂⟩

theorem IsSpacing.isPrinted {space : List Char} (h : IsSpacing space) :
    ∀ b ∈ space, IsPrinted b := by
  intro b hb
  rcases h b hb with rfl | rfl
  · exact Or.inl (by decide)
  · exact Or.inr rfl

theorem Lexes.blank {space : List Char} (spacing : IsSpacing space)
    (h : Lexes depth named cs ts) : Lexes depth named (space ++ cs) ts where
  printed := by
    intro c hc
    rcases List.mem_append.mp hc with early | late
    · exact spacing.isPrinted c early
    · exact h.printed c late
  leads := by
    intro before more l ends allowed inside
    rw [List.append_assoc] at inside
    exact h.leads before more l ends allowed (inside.blank spacing)

/-- What begins with no name may stand where a name may begin. -/
theorem Lexes.unnamed (h : Lexes depth false cs ts) : Lexes depth named cs ts where
  printed := h.printed
  leads := fun before more l ends _ => h.leads before more l ends fun no => nomatch no

/-- After a comma a name may begin. -/
theorem Lexes.comma (h : Lexes depth named cs ts) :
    Lexes depth false (',' :: cs) (.flowSeparator :: ts) where
  printed := List.forall_mem_cons.mpr ⟨Or.inl (by decide), h.printed⟩
  leads := by
    intro before more l ends _ inside
    obtain ⟨l₁, leads, inside₁, allowed⟩ := inside.separates
    obtain ⟨l₂, leads', inside₂⟩ := h.leads _ more l₁ ends (fun _ => allowed) inside₁
    exact ⟨l₂, leads.trans leads', by simpa using inside₂⟩

/-- What is in brackets may stand anywhere. -/
theorem Lexes.enclosed {c d : Char} {t t' : Token} (opening : Opens c t) (closing : Closes d t')
    {close : List Char} (spacing : IsSpacing close) (h : Lexes (depth + 1) true cs ts) :
    Lexes depth named (c :: cs ++ (close ++ [d])) (t :: ts ++ [t']) where
  printed := by
    have brackets : IsPrinted c ∧ IsPrinted d := by
      cases opening <;> cases closing <;> exact ⟨Or.inl (by decide), Or.inl (by decide)⟩
    intro b hb
    simp only [List.cons_append, List.mem_cons, List.mem_append, List.not_mem_nil, or_false] at hb
    rcases hb with rfl | inner | space | rfl
    · exact brackets.1
    · exact h.printed b inner
    · exact spacing.isPrinted b space
    · exact brackets.2
  leads := by
    intro before more l _ _ inside
    have shape : c :: cs ++ (close ++ [d]) ++ more = c :: (cs ++ (close ++ d :: more)) := by simp
    rw [shape] at inside
    obtain ⟨l₁, leads₁, inside₁, allowed⟩ := inside.opens opening
    obtain ⟨l₂, leads₂, inside₂⟩ := h.leads _ _ l₁
      (Or.inr ((Ends.closer closing.isCloser more).blank spacing)) (fun _ => allowed) inside₁
    obtain ⟨l₃, leads₃, inside₃⟩ := (inside₂.blank spacing).closes closing
    exact ⟨l₃, (leads₁.trans leads₂).trans leads₃, by simpa using inside₃⟩

theorem lexes_literal {word : List Char} (filled : word ≠ [])
    (literal : ∀ c ∈ word, c ∈ literalCharacters) :
    Lexes (depth + 1) named word [.scalar .plain (String.ofList word)] where
  printed := fun c hc => Or.inl (plain_of_mem_literalCharacters (literal c hc)).2.2.2.2.2
  leads := fun _ _ _ ends _ inside =>
    inside.literal filled literal (ends.resolve_left (Nat.succ_ne_zero _))

theorem isVisible_escape {s : String} (visible : ∀ c ∈ s.toList, IsVisible c) :
    ∀ c ∈ (Json.escape s).toList, IsVisible c := by
  rw [Json.escape, String.toList_ofList]
  intro c hc
  obtain ⟨d, hd, written⟩ := List.mem_flatMap.mp hc
  rcases escapeChar_of_isVisible (visible d hd) with ⟨escaped, _⟩ | ⟨plain, _⟩
  · rw [escaped] at written
    rcases List.mem_cons.mp written with rfl | same
    · decide
    · exact List.mem_singleton.mp same ▸ visible d hd
  · rw [plain] at written
    exact List.mem_singleton.mp written ▸ visible d hd

theorem lexes_text {s : String} (visible : ∀ c ∈ s.toList, IsVisible c) :
    Lexes depth named ('"' :: (Json.escape s).toList ++ ['"']) [.scalar .quoted s] where
  printed := by
    intro c hc
    simp only [List.cons_append, List.mem_cons, List.mem_append, List.not_mem_nil, or_false] at hc
    rcases hc with rfl | inner | rfl
    · exact Or.inl (by decide)
    · exact Or.inl (isVisible_escape visible c inner)
    · exact Or.inl (by decide)
  leads := by
    intro before more l _ _ inside
    exact Inside.text visible (by simpa using inside)

/-- A name with its value. -/
theorem Lexes.entry {s : String} (visible : ∀ c ∈ s.toList, IsVisible c)
    (short : (Json.escape s).toList.length ≤ 1022) (h : Lexes (depth + 1) false cs ts) :
    Lexes (depth + 1) true ('"' :: (Json.escape s).toList ++ '"' :: ':' :: cs)
      (.key :: .scalar .quoted s :: .value :: ts) where
  printed := by
    intro c hc
    simp only [List.cons_append, List.mem_cons, List.mem_append] at hc
    rcases hc with rfl | inner | rfl | rfl | value
    · exact Or.inl (by decide)
    · exact Or.inl (isVisible_escape visible c inner)
    · exact Or.inl (by decide)
    · exact Or.inl (by decide)
    · exact h.printed c value
  leads := by
    intro before more l ends allowed inside
    have inside : Inside (depth + 1) before
        ('"' :: (Json.escape s).toList ++ '"' :: ':' :: (cs ++ more)) l := by
      simpa using inside
    obtain ⟨l₁, leads, inside₁⟩ := Inside.name visible short (allowed rfl) inside
    obtain ⟨l₂, leads', inside₂⟩ := h.leads _ more l₁ ends (fun no => nomatch no) inside₁
    exact ⟨l₂, leads.trans leads', by simpa using inside₂⟩

end BasicBlocks.Yaml

namespace BasicBlocks.Json

open Yaml (IsVisible IsSpacing Lexes)

/-- A name that ends within 1024 characters, with its quotes. -/
def IsShortName (raw : String) : Prop :=
  ∃ s : String, (∀ c ∈ s.toList, IsVisible c) ∧ raw = escape s ∧ raw.toList.length ≤ 1022

/-- Documents that are YAML, too. -/
inductive IsFlow : Json → Prop
  | null : IsFlow .null
  | bool (value : Bool) : IsFlow (.bool value)
  | number (n : Nat) : IsFlow (.number (Numeral.decimal n))
  | text {s : String} (visible : ∀ c ∈ s.toList, IsVisible c) : IsFlow (.text (escape s))
  | array {elements : List Json} (each : ∀ j ∈ elements, IsFlow j) : IsFlow (.array elements)
  | object {members : List (String × Json)} (names : ∀ m ∈ members, IsShortName m.1)
      (each : ∀ m ∈ members, IsFlow m.2) : IsFlow (.object members)

/-- The text that is written between quotes. -/
def meant (raw : String) : String := (unescape? raw).getD ""

@[simp] theorem meant_escape (s : String) : meant (escape s) = s := by simp [meant]

mutual

/-- The YAML tokens of a document. -/
def flowTokens : Json → List Yaml.Token
  | .null => [.scalar .plain "null"]
  | .bool true => [.scalar .plain "true"]
  | .bool false => [.scalar .plain "false"]
  | .number literal => [.scalar .plain literal]
  | .text raw => [.scalar .quoted (meant raw)]
  | .array [] => [.flowSequenceStart, .flowSequenceEnd]
  | .array (first :: rest) =>
    .flowSequenceStart :: (flowTokens first ++ laterItems rest) ++ [.flowSequenceEnd]
  | .object [] => [.flowMappingStart, .flowMappingEnd]
  | .object ((name, value) :: rest) =>
    .flowMappingStart :: (.key :: .scalar .quoted (meant name) :: .value :: flowTokens value ++
      laterEntries rest) ++ [.flowMappingEnd]

/-- Items after the first. -/
def laterItems : List Json → List Yaml.Token
  | [] => []
  | first :: rest => .flowSeparator :: (flowTokens first ++ laterItems rest)

/-- Entries after the first. -/
def laterEntries : List (String × Json) → List Yaml.Token
  | [] => []
  | (name, value) :: rest =>
    .flowSeparator :: (.key :: .scalar .quoted (meant name) :: .value :: flowTokens value ++
      laterEntries rest)

end

mutual

/-- What a document means in YAML. -/
def toNode : Json → Yaml.Node
  | .null => .scalar none .plain "null"
  | .bool true => .scalar none .plain "true"
  | .bool false => .scalar none .plain "false"
  | .number literal => .scalar none .plain literal
  | .text raw => .scalar none .quoted (meant raw)
  | .array elements => .sequence none (toNodes elements)
  | .object members => .mapping none (toEntries members)

def toNodes : List Json → List Yaml.Node
  | [] => []
  | first :: rest => toNode first :: toNodes rest

def toEntries : List (String × Json) → List (Yaml.Node × Yaml.Node)
  | [] => []
  | (name, value) :: rest => (.scalar none .quoted (meant name), toNode value) :: toEntries rest

end

/-! ## Lexing -/

section Forms

variable {depth : Nat} {space gap close : List Char} (write : Json → List Char)

theorem ends_afterCommas {α : Type} (write : α → List Char) (rest : List α) {more : List Char}
    (ends : Yaml.Ends more) : Yaml.Ends (afterCommas space write rest ++ more) := by
  cases rest with
  | nil => exact ends
  | cons a rest => exact .closer (Or.inl rfl) _

theorem lexes_laterItems (spacing : IsSpacing space) {rest : List Json}
    (each : ∀ j ∈ rest, Lexes depth false (write j) j.flowTokens) :
    Lexes depth false (afterCommas space write rest) (laterItems rest) := by
  induction rest with
  | nil => exact Yaml.lexes_nil
  | cons j rest ih =>
    obtain ⟨first, others⟩ := List.forall_mem_cons.mp each
    have item := (first.append (fun _ => ends_afterCommas write rest) (ih others)).blank spacing
    simpa [afterCommas, laterItems] using item.comma

theorem lexes_member (spacing : IsSpacing gap) {m : String × Json}
    (name : IsShortName m.1) (value : Lexes (depth + 1) false (write m.2) m.2.flowTokens) :
    Lexes (depth + 1) true (memberChars gap write m)
      (.key :: .scalar .quoted (meant m.1) :: .value :: m.2.flowTokens) := by
  obtain ⟨s, visible, name, short⟩ := name
  rw [name] at short
  have entry := Lexes.entry visible short (value.blank spacing)
  simpa [memberChars, name] using entry

theorem lexes_laterEntries (spacing : IsSpacing space) (gapSpacing : IsSpacing gap)
    {rest : List (String × Json)} (names : ∀ m ∈ rest, IsShortName m.1)
    (each : ∀ m ∈ rest, Lexes (depth + 1) false (write m.2) m.2.flowTokens) :
    Lexes (depth + 1) false (afterCommas space (memberChars gap write) rest)
      (laterEntries rest) := by
  induction rest with
  | nil => exact Yaml.lexes_nil
  | cons m rest ih =>
    obtain ⟨name, names⟩ := List.forall_mem_cons.mp names
    obtain ⟨first, others⟩ := List.forall_mem_cons.mp each
    have entry := ((lexes_member write gapSpacing name first).append
      (fun _ => ends_afterCommas _ rest) (ih names others)).blank spacing
    simpa [afterCommas, laterEntries] using entry.comma

theorem lexes_array (spacing : IsSpacing space) (closeSpacing : IsSpacing close) {first : Json}
    {rest : List Json}
    (each : ∀ j ∈ first :: rest, Lexes (depth + 1) false (write j) j.flowTokens) :
    Lexes depth false
      ('[' :: space ++ write first ++ afterCommas space write rest ++ close ++ [']'])
      (flowTokens (.array (first :: rest))) := by
  obtain ⟨first, others⟩ := List.forall_mem_cons.mp each
  have items := (first.append (fun _ => ends_afterCommas write rest)
    (lexes_laterItems write spacing others)).blank spacing
  have enclosed : Lexes depth false _ _ := .enclosed .sequence .sequence closeSpacing items.unnamed
  simpa [flowTokens] using enclosed

theorem lexes_object (spacing : IsSpacing space) (gapSpacing : IsSpacing gap)
    (closeSpacing : IsSpacing close) {first : String × Json} {rest : List (String × Json)}
    (names : ∀ m ∈ first :: rest, IsShortName m.1)
    (each : ∀ m ∈ first :: rest, Lexes (depth + 1) false (write m.2) m.2.flowTokens) :
    Lexes depth false ('\x7b' :: space ++ memberChars gap write first ++
        afterCommas space (memberChars gap write) rest ++ close ++ ['\x7d'])
      (flowTokens (.object (first :: rest))) := by
  obtain ⟨name, names⟩ := List.forall_mem_cons.mp names
  obtain ⟨value, others⟩ := List.forall_mem_cons.mp each
  have entries := ((lexes_member write gapSpacing name value).append
    (fun _ => ends_afterCommas _ rest)
    (lexes_laterEntries write spacing gapSpacing names others)).blank spacing
  have enclosed : Lexes depth false _ _ := .enclosed .mapping .mapping closeSpacing entries
  simpa [flowTokens] using enclosed

end Forms

/-- Documents in brackets. -/
def isCollection : Json → Bool
  | .array _ => true
  | .object _ => true
  | _ => false

theorem lexes_number {depth : Nat} (n : Nat) :
    Lexes (depth + 1) false (Numeral.writeChars 10 n)
      [.scalar .plain (Numeral.decimal n)] := by
  obtain ⟨c, rest, shape, _⟩ := exists_digit_writeChars n
  refine Yaml.lexes_literal (by simp [shape]) fun c hc => ?_
  have digits : "0123456789".toList ⊆ Yaml.literalCharacters := by decide
  exact digits (mem_digits_of_isDigit (isDigit_of_mem_writeChars c hc))

theorem IsFlow.lexes_scalar {j : Json} (h : j.IsFlow) (scalar : j.isCollection = false)
    (depth : Nat) : Lexes (depth + 1) false (compactChars j) j.flowTokens := by
  cases h with
  | null => exact Yaml.lexes_literal (by decide) (List.forall_iff_forall_mem.mp (by decide))
  | bool value =>
    cases value
    · exact Yaml.lexes_literal (by decide) (List.forall_iff_forall_mem.mp (by decide))
    · exact Yaml.lexes_literal (by decide) (List.forall_iff_forall_mem.mp (by decide))
  | number n =>
    simpa [compactChars, tokens, Token.written, Numeral.decimal, flowTokens] using lexes_number n
  | text visible =>
    simpa [compactChars, tokens, Token.written, flowTokens] using Yaml.lexes_text visible
  | array => cases scalar
  | object => cases scalar

/-- A way to print documents: what stands inside the brackets at each level, and after the
colons. -/
structure IsForm (space : Nat → List Char) (gap : List Char) (write : Nat → Json → List Char) :
    Prop where
  spacing : ∀ level, IsSpacing (space level)
  gapSpacing : IsSpacing gap
  scalar : ∀ level j, j.isCollection = false → write level j = compactChars j
  emptyArray : ∀ level, write level (.array []) = ['[', ']']
  array : ∀ level first rest, write level (.array (first :: rest)) =
    '[' :: space (level + 1) ++ write (level + 1) first ++
      afterCommas (space (level + 1)) (write (level + 1)) rest ++ space level ++ [']']
  emptyObject : ∀ level, write level (.object []) = ['\x7b', '\x7d']
  object : ∀ level first rest, write level (.object (first :: rest)) =
    '\x7b' :: space (level + 1) ++ memberChars gap (write (level + 1)) first ++
      afterCommas (space (level + 1)) (memberChars gap (write (level + 1))) rest ++ space level ++
      ['\x7d']

theorem isForm_compact : IsForm (fun _ => []) [] fun _ => compactChars where
  spacing := fun _ => Yaml.isSpacing_nil
  gapSpacing := Yaml.isSpacing_nil
  scalar := fun _ _ _ => rfl
  emptyArray := fun _ => rfl
  array := by
    intro _ first rest
    rw [← writtenTokens_elementTokens]
    simp [compactChars, tokens, Token.written]
  emptyObject := fun _ => rfl
  object := by
    intro _ first rest
    rw [← writtenTokens_memberTokens]
    simp [compactChars, tokens, Token.written, memberChars]

theorem isForm_pretty : IsForm (fun level => (newLine level).toList) [' '] prettyChars where
  spacing := by
    intro level c hc
    have cases : c = '\n' ∨ ¬ level = 0 ∧ c = ' ' := by simpa [newLine] using hc
    exact cases.symm.imp_left (·.2)
  gapSpacing := List.forall_mem_singleton.mpr (Or.inl rfl)
  scalar := by
    intro level j scalar
    cases j with
    | bool value =>
      cases value <;> simp [prettyChars, prettyAt, compactChars, tokens, Token.written]
    | array => cases scalar
    | object => cases scalar
    | _ => simp [prettyChars, prettyAt, compactChars, tokens, Token.written]
  emptyArray := fun level => by simp [prettyChars, prettyAt]
  array := by
    intro level first rest
    rw [← toList_prettyElements]
    simp [prettyChars, prettyAt]
  emptyObject := fun level => by simp [prettyChars, prettyAt]
  object := by
    intro level first rest
    rw [← toList_prettyMembers]
    simp [prettyChars, prettyAt, memberChars]

/-- Every form of a document holds its tokens; outside of all collections it has to be one. -/
theorem IsFlow.lexes {j : Json} (h : j.IsFlow) {space : Nat → List Char} {gap : List Char}
    {write : Nat → Json → List Char} (form : IsForm space gap write) :
    ∀ level depth, (depth = 0 → j.isCollection = true) →
      Lexes depth false (write level j) j.flowTokens := by
  have scalar : ∀ j : Json, j.IsFlow → j.isCollection = false → ∀ level depth,
      (depth = 0 → j.isCollection = true) → Lexes depth false (write level j) j.flowTokens := by
    intro j h scalar level depth outermost
    rw [form.scalar level j scalar]
    cases depth with
    | zero => exact absurd (outermost rfl) (by simp [scalar])
    | succ depth => exact h.lexes_scalar scalar depth
  induction h with
  | null => exact scalar _ .null rfl
  | bool value => exact scalar _ (.bool value) rfl
  | number n => exact scalar _ (.number n) rfl
  | text visible => exact scalar _ (.text visible) rfl
  | @array elements _ ih =>
    intro level depth _
    cases elements with
    | nil =>
      rw [form.emptyArray]
      exact .enclosed .sequence .sequence Yaml.isSpacing_nil Yaml.lexes_nil
    | cons first rest =>
      rw [form.array]
      exact lexes_array _ (form.spacing _) (form.spacing _) fun j hj =>
        ih j hj (level + 1) (depth + 1) fun none => nomatch none
  | @object members names _ ih =>
    intro level depth _
    cases members with
    | nil =>
      rw [form.emptyObject]
      exact .enclosed .mapping .mapping Yaml.isSpacing_nil Yaml.lexes_nil
    | cons first rest =>
      rw [form.object]
      exact lexes_object _ (form.spacing _) form.gapSpacing (form.spacing _) names fun m hm =>
        ih m hm (level + 1) (depth + 1) fun none => nomatch none

/-- A printed document is cut into its tokens, with white space after it. -/
theorem IsFlow.lex {j : Json} (h : j.IsFlow) (collection : j.isCollection = true)
    {space : Nat → List Char} {gap : List Char} {write : Nat → Json → List Char}
    (form : IsForm space gap write) {s : String} {after : List Char} (spacing : IsSpacing after)
    (written : s.toList = write 0 j ++ after) : Yaml.lex s = some j.flowTokens := by
  have lexes := h.lexes form 0 0 fun _ => collection
  have printed : ∀ c ∈ s.toList, Yaml.IsPrinted c := by
    rw [written]
    exact List.forall_mem_append.mpr ⟨lexes.printed, spacing.isPrinted⟩
  have printable : s.toList.all Yaml.isPrintable = true :=
    List.all_eq_true.mpr fun c hc => (printed c hc).isPrintable
  have unmarked : Yaml.dropByteOrderMark (.ofChars s.toList) = .ofChars s.toList := by
    refine if_neg fun marked => ?_
    exact absurd (printed _ (List.mem_of_mem_head? marked)) (by decide)
  have begins : Yaml.Lexer.Inside 0 [] (write 0 j ++ after)
      (Yaml.Lexer.start (.ofChars s.toList)) :=
    { candidate := fun _ none => nomatch none
      outer := fun _ none => nomatch none
      depth := rfl
      indent := rfl
      marks := fun _ none => nomatch none
      confirmed := fun _ none => nomatch none
      tokens := rfl
      rest := .of_eq written }
  obtain ⟨l, ⟨k, fits, goes⟩, inside⟩ := lexes.leads [] after _ (Or.inl rfl) (fun no => nomatch no)
    begins
  rw [← List.append_nil after] at inside
  obtain ⟨l', ended, tokens⟩ := (inside.blank spacing).finishes (s.toList.length + 1 - k)
  have enough : s.toList.length + 1 - k + k = s.toList.length + 1 := by
    have whole : (Yaml.Lexer.start (.ofChars s.toList)).cursor.rest = s.toList := rfl
    rw [whole] at fits
    omega
  rw [Yaml.lex]
  simp only [printable, unmarked]
  rw [← enough, goes, ended]
  simp [tokens]

/-! ## Parsing -/

open Yaml.Node

section Steps

variable {n : Nat} {ts : List Yaml.Token} {s : Yaml.Node.Scope} {j : Json}

/-- No document begins with what could end one. -/
theorem exists_flowTokens (j : Json) : ∃ t rest, j.flowTokens = t :: rest ∧ t ≠ .key ∧
    t ≠ .flowSeparator ∧ t ≠ .flowSequenceEnd ∧ t ≠ .flowMappingEnd := by
  rcases j with _ | (_ | _) | _ | _ | (_ | _) | (_ | _)
  all_goals
    refine ⟨_, _, by simp only [flowTokens, List.cons_append]; rfl, ?_, ?_, ?_, ?_⟩ <;> simp

/-- An item of a sequence, as the first or after a comma. -/
theorem flowItems_item (node : parse n inFlow (j.flowTokens ++ ts) s = some (j.toNode, ts, s)) :
    flowItems (n + 2) true (j.flowTokens ++ ts) s =
        (flowItems (n + 1) false ts s).map (fun r => (j.toNode :: r.1, r.2)) ∧
      flowItems (n + 2) false (.flowSeparator :: (j.flowTokens ++ ts)) s =
        (flowItems (n + 1) false ts s).map (fun r => (j.toNode :: r.1, r.2)) := by
  obtain ⟨t, rest, begins, notKey, _, notEnd, _⟩ := exists_flowTokens j
  have item : flowItem (n + 1) (j.flowTokens ++ ts) s = some (j.toNode, ts, s) := by
    rw [begins, List.cons_append] at node ⊢
    simp [flowItem, notKey, node]
  rw [begins, List.cons_append] at item ⊢
  constructor
  · simp [flowItems, notEnd, item]
  · simp [flowItems, notEnd, item]

/-- An entry of a mapping, as the first or after a comma. -/
theorem flowEntries_entry (name : String)
    (node : parse n inFlow (j.flowTokens ++ ts) s = some (j.toNode, ts, s)) :
    let entry : List Yaml.Token := .key :: .scalar .quoted name :: .value :: (j.flowTokens ++ ts)
    flowEntries (n + 4) true entry s = (flowEntries (n + 3) false ts s).map
        (fun r => ((.scalar none .quoted name, j.toNode) :: r.1, r.2)) ∧
      flowEntries (n + 4) false (.flowSeparator :: entry) s = (flowEntries (n + 3) false ts s).map
        (fun r => ((.scalar none .quoted name, j.toNode) :: r.1, r.2)) := by
  intro tokens
  obtain ⟨t, rest, begins, _, notSeparator, _, notEnd⟩ := exists_flowTokens j
  have value : flowValue (n + 2) [.flowSeparator, .flowMappingEnd]
      (.value :: (j.flowTokens ++ ts)) s = some (j.toNode, ts, s) := by
    rw [begins, List.cons_append] at node ⊢
    simp [flowValue, parseOr, isAbsent, notSeparator, notEnd, node]
  have entry : flowEntry (n + 3) tokens s =
      some ((.scalar none .quoted name, j.toNode), ts, s) := by
    simp [tokens, flowEntry, parseOr, isAbsent, parse, takeProperties, Yaml.Node.Scope.name, value,
      scalarTag]
  constructor
  · simp [tokens, flowEntries] at entry ⊢
    simp [entry]
  · simp [tokens, flowEntries] at entry ⊢
    simp [entry]

end Steps

mutual

/-- The tokens of a document make up its node. -/
theorem parse_flowTokens : ∀ (j : Json) (n : Nat) (place : Place) (ts : List Yaml.Token)
    (s : Yaml.Node.Scope), 4 * j.flowTokens.length ≤ n →
    parse n place (j.flowTokens ++ ts) s = some (j.toNode, ts, s)
  | .null, n + 1, place, ts, s, _ => rfl
  | .bool true, n + 1, place, ts, s, _ => rfl
  | .bool false, n + 1, place, ts, s, _ => rfl
  | .number literal, n + 1, place, ts, s, _ => rfl
  | .text raw, n + 1, place, ts, s, _ => rfl
  | .array [], n + 2, place, ts, s, _ => rfl
  | .object [], n + 2, place, ts, s, _ => rfl
  | .array (first :: rest), n + 1, place, ts, s, enough => by
    have length : 4 * (first.flowTokens.length + (laterItems rest).length) + 7 ≤ n := by
      simp [flowTokens] at enough
      omega
    obtain ⟨m, rfl⟩ : ∃ m, n = m + 2 := ⟨n - 2, by omega⟩
    have item := (flowItems_item (parse_flowTokens first m inFlow
      (laterItems rest ++ .flowSequenceEnd :: ts) s (by omega))).1
    rw [flowItems_laterItems rest (m + 1) ts s (by omega)] at item
    simp [flowTokens, toNode, toNodes, parse, takeProperties, item, Yaml.Node.Scope.name]
  | .object ((name, value) :: rest), n + 1, place, ts, s, enough => by
    have length : 4 * (value.flowTokens.length + (laterEntries rest).length) + 19 ≤ n := by
      simp [flowTokens] at enough
      omega
    obtain ⟨m, rfl⟩ : ∃ m, n = m + 4 := ⟨n - 4, by omega⟩
    have entry := (flowEntries_entry (meant name) (parse_flowTokens value m inFlow
      (laterEntries rest ++ .flowMappingEnd :: ts) s (by omega))).1
    rw [flowEntries_laterEntries rest (m + 3) ts s (by omega)] at entry
    simp [flowTokens, toNode, toEntries, parse, takeProperties, entry, Yaml.Node.Scope.name]

theorem flowItems_laterItems : ∀ (rest : List Json) (n : Nat) (ts : List Yaml.Token)
    (s : Yaml.Node.Scope), 4 * (laterItems rest).length + 4 ≤ n →
    flowItems n false (laterItems rest ++ .flowSequenceEnd :: ts) s = some (toNodes rest, ts, s)
  | [], n + 1, ts, s, _ => rfl
  | first :: rest, n, ts, s, enough => by
    have length : 4 * (first.flowTokens.length + (laterItems rest).length) + 8 ≤ n := by
      simp [laterItems] at enough
      omega
    obtain ⟨m, rfl⟩ : ∃ m, n = m + 2 := ⟨n - 2, by omega⟩
    have item := (flowItems_item (parse_flowTokens first m inFlow
      (laterItems rest ++ .flowSequenceEnd :: ts) s (by omega))).2
    rw [flowItems_laterItems rest (m + 1) ts s (by omega)] at item
    simpa [laterItems, toNodes] using item

theorem flowEntries_laterEntries : ∀ (rest : List (String × Json)) (n : Nat) (ts : List Yaml.Token)
    (s : Yaml.Node.Scope), 4 * (laterEntries rest).length + 4 ≤ n →
    flowEntries n false (laterEntries rest ++ .flowMappingEnd :: ts) s =
      some (toEntries rest, ts, s)
  | [], n + 1, ts, s, _ => rfl
  | (name, value) :: rest, n, ts, s, enough => by
    have length : 4 * (value.flowTokens.length + (laterEntries rest).length) + 20 ≤ n := by
      simp [laterEntries] at enough
      omega
    obtain ⟨m, rfl⟩ : ∃ m, n = m + 4 := ⟨n - 4, by omega⟩
    have entry := (flowEntries_entry (meant name) (parse_flowTokens value m inFlow
      (laterEntries rest ++ .flowMappingEnd :: ts) s (by omega))).2
    rw [flowEntries_laterEntries rest (m + 3) ts s (by omega)] at entry
    simpa [laterEntries, toEntries] using entry

end

/-- A printed document is read in YAML. -/
theorem IsFlow.read? {j : Json} (h : j.IsFlow) (collection : j.isCollection = true)
    {space : Nat → List Char} {gap : List Char} {write : Nat → Json → List Char}
    (form : IsForm space gap write) {s : String} {after : List Char} (spacing : IsSpacing after)
    (written : s.toList = write 0 j ++ after) : Yaml.read? s = some (some j.toNode) := by
  have parsed := parse_flowTokens j (4 * j.flowTokens.length + 4) inBlock [] .initial (by omega)
  rw [List.append_nil] at parsed
  obtain ⟨t, rest, begins, bracket⟩ : ∃ t rest, j.flowTokens = t :: rest ∧
      (t = .flowSequenceStart ∨ t = .flowMappingStart) := by
    cases j with
    | array elements => cases elements <;> exact ⟨_, _, rfl, Or.inl rfl⟩
    | object members => cases members <;> exact ⟨_, _, rfl, Or.inr rfl⟩
    | _ => cases collection
  rw [Yaml.read?, h.lex collection form spacing written, Option.bind_some]
  rw [begins, List.length_cons] at parsed
  rw [begins]
  rcases bracket with rfl | rfl <;> simp [Yaml.Node.ofTokens?, takeDirectives, parsed]

end BasicBlocks.Json
