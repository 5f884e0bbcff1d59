import BasicBlocks.Proofs.FlowScalars

/-!
# Tokens of flow collections

A run of the lexer inside flow collections, a token at a time. Every node that stands where a key
may begin leaves a mark, but only the mark of a name is ever confirmed: a name ends at its colon, on
the same line and in time. The other candidates are given up without an error, since none is
required outside a block.
-/

namespace BasicBlocks.Yaml

namespace Lexer

/-- A candidate that may be given up. -/
def IsIdle (k : Option Candidate) : Prop := ∀ c ∈ k, c.required = false

/-- The same characters, but for white space before them. -/
def SameBut (cs cs' : List Char) : Prop :=
  ∃ space space' core, IsSpacing space ∧ IsSpacing space' ∧ cs = space ++ core ∧
    cs' = space' ++ core

/-- A run inside so many flow collections, and no block, that has read `ts` and comes to `cs`. -/
structure Inside (depth : Nat) (ts : List Token) (cs : List Char) (l : Lexer) : Prop where
  candidate : IsIdle l.candidate
  outer : ∀ k ∈ l.outer, IsIdle k
  depth : l.outer.length = depth
  indent : l.indent = -1
  marks : ∀ m, .mark m ∈ l.items → m < l.marks
  confirmed : ∀ k ∈ l.confirmed, k.1 < l.marks
  tokens : l.tokens = ts
  rest : SameBut l.cursor.rest cs

/-- The run goes on from one state to another. It takes no more tokens than characters. -/
def Leads (l l' : Lexer) : Prop :=
  ∃ k, k + l'.cursor.rest.length ≤ l.cursor.rest.length ∧ ∀ n, run (n + k) l = run n l'

theorem Leads.refl (l : Lexer) : Leads l l := ⟨0, by omega, fun _ => rfl⟩

theorem Leads.trans {l l' l'' : Lexer} (h : Leads l l') (h' : Leads l' l'') : Leads l l'' := by
  obtain ⟨k, fits, goes⟩ := h
  obtain ⟨k', fits', goes'⟩ := h'
  refine ⟨k' + k, by omega, fun n => ?_⟩
  rw [← Nat.add_assoc, goes, goes']

/-! ## Before a token -/

theorem exists_expire (now : Position) {k : Option Candidate} (h : IsIdle k) :
    ∃ k', expire now k = some k' ∧ IsIdle k' := by
  cases k with
  | none => exact ⟨none, rfl, h⟩
  | some k =>
    have idle := h k rfl
    by_cases old : k.position.line < now.line ∨ k.position.index + 1024 < now.index
    · exact ⟨none, by simp [expire, old, idle], fun _ none => nomatch none⟩
    · exact ⟨some k, by simp [expire, old], h⟩

theorem exists_expire_outer (now : Position) {outer : List (Option Candidate)}
    (h : ∀ k ∈ outer, IsIdle k) :
    ∃ outer', outer.mapM (expire now) = some outer' ∧ outer'.length = outer.length ∧
      ∀ k ∈ outer', IsIdle k := by
  induction outer with
  | nil => exact ⟨[], rfl, rfl, h⟩
  | cons k outer ih =>
    obtain ⟨first, others⟩ := List.forall_mem_cons.mp h
    obtain ⟨k', expired, idle⟩ := exists_expire now first
    obtain ⟨outer', expired', length, idle'⟩ := ih others
    refine ⟨k' :: outer', ?_, by simp [length], List.forall_mem_cons.mpr ⟨idle, idle'⟩⟩
    simp [List.mapM_cons, expired, expired']

/-- Neither a gap nor a comment comes next. -/
def Begins (cs : List Char) : Prop := ∀ c ∈ cs.head?, IsSolid c ∧ c ≠ '#'

theorem begins_cons {c : Char} (solid : IsSolid c) (notComment : c ≠ '#') (cs : List Char) :
    Begins (c :: cs) := by
  rintro _ ⟨⟩
  exact ⟨solid, notComment⟩

theorem exists_skipGap (inFlow : Bool) {space cs : List Char} (spacing : IsSpacing space)
    (begins : Begins cs) (allowed : Bool) (p : Position) :
    ∃ p' allowed', skipGap inFlow allowed false (space ++ cs) p = (⟨cs, p'⟩, allowed') ∧
      (allowed = true → allowed' = true) ∧ (space = [] → p' = p ∧ allowed' = allowed) := by
  induction space generalizing allowed p with
  | nil =>
    refine ⟨p, allowed, ?_, id, fun _ => ⟨rfl, rfl⟩⟩
    cases cs with
    | nil => rfl
    | cons c cs =>
      obtain ⟨solid, notComment⟩ := begins c rfl
      have notBlank : c ≠ ' ' ∧ c ≠ '\t' := by simpa [isBlank] using solid.1
      rw [List.nil_append, skipGap.eq_def]
      simp [solid.2, notComment, notBlank]
  | cons b space ih =>
    obtain ⟨first, others⟩ := List.forall_mem_cons.mp spacing
    rcases first with rfl | rfl
    · obtain ⟨p', allowed', skipped, kept, _⟩ := ih others allowed p.next
      exact ⟨p', allowed', skipped, kept, fun none => absurd none (List.cons_ne_nil _ _)⟩
    · obtain ⟨p', allowed', skipped, kept, _⟩ := ih others (allowed || !inFlow) (p.newLine 1)
      refine ⟨p', allowed', ?_, fun h => kept (by simp [h]), ?_⟩
      · cases space <;> exact skipped
      · exact fun none => absurd none (List.cons_ne_nil _ _)

/-- Without a block collection there is nothing to close before a token. -/
theorem unroll_margin {l : Lexer} (margin : l.indent = -1) {column : Int} (inText : -1 ≤ column) :
    l.unroll column = l := by
  rw [unroll, unrollWithin, if_pos]
  simp [margin, inText]

theorem ready_margin {l l' : Lexer} (aged : l.toToken.expireAll = some l')
    (margin : l'.indent = -1) : l.ready = some l' := by
  rw [ready, aged, Option.map_some, unroll_margin margin (by omega)]

theorem run_succ {l l' : Lexer} (ready : l.ready = some l') {c : Char} {cs : List Char}
    (front : l'.cursor.rest = c :: cs) (n : Nat) :
    run (n + 1) l = (l'.fetch c cs).bind (run n) := by
  rw [run, ready, Option.bind_some, front]

theorem run_end {l l' : Lexer} (ready : l.ready = some l') (front : l'.cursor.rest = []) (n : Nat) :
    run n l = l'.finish := by
  cases n with
  | zero => rw [run, ready, Option.bind_some, front, List.isEmpty_nil, if_pos rfl]
  | succ n => rw [run, ready, Option.bind_some, front]

theorem SameBut.begins {cs cs' : List Char} (begins : Begins cs) (h : SameBut cs' cs) :
    ∃ space, IsSpacing space ∧ cs' = space ++ cs := by
  obtain ⟨space, space', core, spacing, spacing', rfl, rfl⟩ := h
  cases space' with
  | nil => exact ⟨space, spacing, rfl⟩
  | cons b space' =>
    obtain ⟨⟨notBlank, notBreak⟩, _⟩ := begins b rfl
    rcases spacing' b List.mem_cons_self with rfl | rfl
    · exact absurd notBlank (by decide)
    · exact absurd notBreak (by decide)

theorem SameBut.blank {space cs cs' : List Char} (spacing : IsSpacing space)
    (h : SameBut cs' (space ++ cs)) : SameBut cs' cs := by
  obtain ⟨before, before', core, spacingBefore, spacingBefore', rfl, same⟩ := h
  rcases List.append_eq_append_iff.mp same with ⟨more, rfl, rfl⟩ | ⟨more, rfl, rfl⟩
  · refine ⟨before, more, core, spacingBefore, fun b hb => ?_, rfl, rfl⟩
    exact spacingBefore' b (List.mem_append_right _ hb)
  · refine ⟨before ++ more, [], cs, ?_, isSpacing_nil, (List.append_assoc _ _ _).symm, rfl⟩
    intro b hb
    rcases List.mem_append.mp hb with earlier | later
    · exact spacingBefore b earlier
    · exact spacing b (List.mem_append_right _ later)

theorem SameBut.of_eq {cs cs' : List Char} (same : cs = cs') : SameBut cs cs' :=
  ⟨[], [], cs', isSpacing_nil, isSpacing_nil, same, rfl⟩

variable {depth : Nat} {ts : List Token} {c : Char} {cs : List Char} {l : Lexer}

/-- What an item becomes once all names are known. -/
def written (confirmed : List (Nat × Bool)) : Item → List Token
  | .token t => [t]
  | .mark number =>
    match confirmed.lookup number with
    | some true => [.blockMappingStart, .key]
    | some false => [.key]
    | none => []

theorem tokens_eq (l : Lexer) : l.tokens = l.items.reverse.flatMap (written l.confirmed) := by
  rfl

/-- White space is passed over, and old candidates are given up. -/
theorem Inside.exists_ready (h : Inside depth ts cs l) (begins : Begins cs) :
    ∃ l', l.ready = some l' ∧ Inside depth ts cs l' ∧ l'.cursor.rest = cs ∧
      cs.length ≤ l.cursor.rest.length ∧ (l.keyAllowed = true → l'.keyAllowed = true) := by
  obtain ⟨space, spacing, front⟩ := h.rest.begins begins
  obtain ⟨p, allowed, skipped, kept, _⟩ := exists_skipGap l.inFlow spacing begins l.keyAllowed
    l.cursor.position
  obtain ⟨k, expired, idle⟩ := exists_expire p h.candidate
  obtain ⟨outer, expired', length, idle'⟩ := exists_expire_outer p h.outer
  rw [← front] at skipped
  have aged : l.toToken.expireAll = some { l with
      cursor := ⟨cs, p⟩, keyAllowed := allowed, candidate := k, outer := outer } := by
    simp [toToken, expireAll, skipped, expired, expired']
  refine ⟨_, ready_margin aged h.indent, ?_, rfl, by simp [front], kept⟩
  exact { candidate := idle, outer := idle', depth := length.trans h.depth, indent := h.indent
          marks := h.marks, confirmed := h.confirmed, tokens := h.tokens, rest := .of_eq rfl }

/-- The next token is read. -/
theorem Inside.step {P : Lexer → Prop} (h : Inside depth ts (c :: cs) l) (solid : IsSolid c)
    (notComment : c ≠ '#')
    (fetched : ∀ l', Inside depth ts (c :: cs) l' → l'.cursor.rest = c :: cs →
      (l.keyAllowed = true → l'.keyAllowed = true) →
      ∃ l'', l'.fetch c cs = some l'' ∧ l''.cursor.rest.length ≤ cs.length ∧ P l'') :
    ∃ l', Leads l l' ∧ P l' := by
  obtain ⟨l₁, ready, inside, front, shorter, kept⟩ :=
    h.exists_ready (begins_cons solid notComment cs)
  obtain ⟨l', read, shorter', holds⟩ := fetched l₁ inside front kept
  refine ⟨l', ⟨1, ?_, fun n => ?_⟩, holds⟩
  · rw [List.length_cons] at shorter
    omega
  · rw [run_succ ready front, read, Option.bind_some]

/-! ## Tokens -/

/-- A token is added, and the cursor moves on. -/
theorem Inside.emit (h : Inside depth ts cs l) (t : Token) {cursor : Cursor} {cs' : List Char}
    (rest : SameBut cursor.rest cs') (allowed : Bool) :
    Inside depth (ts ++ [t]) cs' ({ l with cursor := cursor, keyAllowed := allowed }.emit t) where
  candidate := h.candidate
  outer := h.outer
  depth := h.depth
  indent := h.indent
  marks := fun m hm => h.marks m (by simpa [Lexer.emit] using hm)
  confirmed := h.confirmed
  tokens := by simp [Lexer.emit, Lexer.tokens, ← h.tokens]
  rest := rest

theorem Inside.dropCandidate (h : Inside depth ts cs l) :
    l.dropCandidate = some { l with candidate := none } := by
  rw [Lexer.dropCandidate]
  cases candidate : l.candidate with
  | none => simp [← candidate]
  | some k => simp [h.candidate k candidate]

/-- A mark that is not confirmed is no token. -/
theorem Inside.marked (h : Inside depth ts cs l) (k : Option Candidate) (idle : IsIdle k) :
    Inside depth ts cs
      { l with candidate := k, marks := l.marks + 1, items := .mark l.marks :: l.items } where
  candidate := idle
  outer := h.outer
  depth := h.depth
  indent := h.indent
  marks := by
    intro m hm
    rcases List.mem_cons.mp hm with same | earlier
    · obtain rfl := Item.mark.inj same
      exact Nat.lt_succ_self _
    · exact Nat.lt_succ_of_lt (h.marks m earlier)
  confirmed := fun k hk => Nat.lt_succ_of_lt (h.confirmed k hk)
  tokens := by
    have fresh : l.confirmed.lookup l.marks = none := by
      rw [List.lookup_eq_none_iff]
      intro k hk
      have lower := h.confirmed k hk
      simp
      omega
    rw [← h.tokens, Lexer.tokens, Lexer.tokens]
    simp [fresh]
  rest := h.rest

/-- The mark of the node that begins here. -/
def noted (l : Lexer) : Lexer :=
  { l with
    candidate := some ⟨l.marks, false, l.cursor.position⟩
    marks := l.marks + 1
    items := .mark l.marks :: l.items }

/-- Outside a block no candidate is required. -/
theorem Inside.noteCandidate (h : Inside depth ts cs l) :
    l.noteCandidate = some (if l.keyAllowed then l.noted else l) := by
  have margin := h.indent
  rw [Lexer.noteCandidate]
  by_cases allowed : l.keyAllowed = true <;> simp [allowed, h.dropCandidate, margin, noted]

theorem Inside.noted (h : Inside depth ts cs l) : Inside depth ts cs l.noted :=
  h.marked _ (by rintro _ ⟨⟩; rfl)

/-- A node may begin here, as a name or not. -/
theorem Inside.exists_noteCandidate (h : Inside depth ts cs l) :
    ∃ l', l.noteCandidate = some l' ∧ Inside depth ts cs l' ∧ l'.cursor = l.cursor := by
  refine ⟨_, h.noteCandidate, ?_, ?_⟩ <;> split
  · exact h.noted
  · exact h
  · rfl
  · rfl

theorem Inside.openFlow (h : Inside depth ts (c :: cs) l) (front : l.cursor.rest = c :: cs)
    (t : Token) :
    ∃ l', l.openFlow t = some l' ∧ l'.cursor.rest = cs ∧ Inside (depth + 1) (ts ++ [t]) cs l' ∧
      l'.keyAllowed = true := by
  obtain ⟨l', noted, inside, same⟩ := h.exists_noteCandidate
  have rest : (l'.cursor.skip 1).rest = cs := by
    rw [same]
    exact rest_skip front
  have opened : Inside (depth + 1) ts (c :: cs)
      { l' with outer := l'.candidate :: l'.outer, candidate := none } :=
    { inside with
      candidate := fun _ none => nomatch none
      outer := List.forall_mem_cons.mpr ⟨inside.candidate, inside.outer⟩
      depth := congrArg (· + 1) inside.depth }
  refine ⟨_, ?_, rest, opened.emit t (.of_eq rest) true, rfl⟩
  rw [Lexer.openFlow, noted]
  rfl

theorem Inside.closeFlow (h : Inside (depth + 1) ts (c :: cs) l) (front : l.cursor.rest = c :: cs)
    (t : Token) :
    ∃ l', l.closeFlow t = some l' ∧ l'.cursor.rest = cs ∧ Inside depth (ts ++ [t]) cs l' := by
  have rest := rest_skip front
  obtain ⟨k, outer, levels⟩ := List.exists_cons_of_length_eq_add_one h.depth
  have idle := h.outer
  have length := h.depth
  rw [levels] at idle length
  obtain ⟨first, others⟩ := List.forall_mem_cons.mp idle
  have closed : Inside depth ts (c :: cs) { l with candidate := k, outer := outer } :=
    { h with candidate := first, outer := others, depth := Nat.succ.inj length }
  refine ⟨_, ?_, rest, closed.emit t (.of_eq rest) false⟩
  rw [Lexer.closeFlow, h.dropCandidate]
  simp only [Option.bind_eq_bind, Option.bind_some, levels]
  rfl

/-- Opening brackets. -/
inductive Opens : Char → Token → Prop
  | sequence : Opens '[' .flowSequenceStart
  | mapping : Opens '\x7b' .flowMappingStart

/-- Closing brackets. -/
inductive Closes : Char → Token → Prop
  | sequence : Closes ']' .flowSequenceEnd
  | mapping : Closes '\x7d' .flowMappingEnd

theorem Closes.isCloser {d : Char} {t : Token} (h : Closes d t) : IsCloser d := by
  cases h with
  | sequence => exact Or.inr (Or.inl rfl)
  | mapping => exact Or.inr (Or.inr rfl)

theorem fetch_opening {t : Token} (opening : Opens c t) (front : l.cursor.rest = c :: cs) :
    l.fetch c cs = l.openFlow t := by
  cases opening with
  | sequence => simp [fetch, atDocumentMark_of_front front]
  | mapping => simp [fetch, atDocumentMark_of_front front]

theorem fetch_closing {t : Token} (closing : Closes c t) (front : l.cursor.rest = c :: cs) :
    l.fetch c cs = l.closeFlow t := by
  cases closing with
  | sequence => simp [fetch, atDocumentMark_of_front front]
  | mapping => simp [fetch, atDocumentMark_of_front front]

theorem Inside.opens {t : Token} (h : Inside depth ts (c :: cs) l) (opening : Opens c t) :
    ∃ l', Leads l l' ∧ Inside (depth + 1) (ts ++ [t]) cs l' ∧ l'.keyAllowed = true := by
  have solid : IsSolid c := by cases opening <;> exact ⟨by decide, by decide⟩
  refine h.step solid (by cases opening <;> decide) fun l₁ inside front _ => ?_
  obtain ⟨l', opened, rest, inside', allowed⟩ := inside.openFlow front t
  exact ⟨l', (fetch_opening opening front).trans opened, by rw [rest], inside', allowed⟩

theorem Inside.closes {t : Token} (h : Inside (depth + 1) ts (c :: cs) l) (closing : Closes c t) :
    ∃ l', Leads l l' ∧ Inside depth (ts ++ [t]) cs l' := by
  have solid : IsSolid c := by cases closing <;> exact ⟨by decide, by decide⟩
  refine h.step solid (by cases closing <;> decide) fun l₁ inside front _ => ?_
  obtain ⟨l', closed, rest, inside'⟩ := inside.closeFlow front t
  exact ⟨l', (fetch_closing closing front).trans closed, by rw [rest], inside'⟩

/-- After a comma a name may begin. -/
theorem Inside.separates (h : Inside depth ts (',' :: cs) l) :
    ∃ l', Leads l l' ∧ Inside depth (ts ++ [.flowSeparator]) cs l' ∧ l'.keyAllowed = true := by
  refine h.step ⟨by decide, by decide⟩ (by decide) fun l₁ inside front _ => ?_
  have rest := rest_skip front
  have dropped : Inside depth ts (',' :: cs) { l₁ with candidate := none } :=
    { inside with candidate := fun _ none => nomatch none }
  refine ⟨_, ?_, (congrArg List.length rest).le, dropped.emit _ (.of_eq rest) true, rfl⟩
  have read : l₁.fetch ',' cs = l₁.dropCandidate.bind fun l =>
      some (((l.allowKeys true).skip 1).emit .flowSeparator) := by
    simp [fetch, atDocumentMark_of_front front]
  rw [read, inside.dropCandidate]
  rfl

theorem fetch_text {l' : Lexer} {s : String} (visible : ∀ c ∈ s.toList, IsVisible c)
    (noted : l.noteCandidate = some l') (same : l'.cursor = l.cursor)
    (front : l.cursor.rest = '"' :: (Json.escape s).toList ++ '"' :: cs) :
    ∃ cursor, l.fetch '"' ((Json.escape s).toList ++ '"' :: cs) =
        some ({ l' with cursor := cursor, keyAllowed := false }.emit (.scalar .quoted s)) ∧
      cursor.rest = cs ∧ l.cursor.Ahead cursor := by
  obtain ⟨cursor, taken, rest, ahead⟩ := takeQuoted_escape visible front
  refine ⟨cursor, ?_, rest, ahead⟩
  have read : l.fetch '"' ((Json.escape s).toList ++ '"' :: cs) = l.quoted true := by
    simp [fetch, atDocumentMark_of_front front]
  rw [read, Lexer.quoted, noted, Option.bind_eq_bind, Option.bind_some, same, taken]
  simp only [Option.bind_eq_bind, Option.bind_some, Lexer.scalar, String.ofList_toList]
  rfl

/-- A text between quotes. -/
theorem Inside.text {s : String} (visible : ∀ c ∈ s.toList, IsVisible c)
    (h : Inside depth ts ('"' :: (Json.escape s).toList ++ '"' :: cs) l) :
    ∃ l', Leads l l' ∧ Inside depth (ts ++ [.scalar .quoted s]) cs l' := by
  refine h.step ⟨by decide, by decide⟩ (by decide) fun l₁ inside front _ => ?_
  obtain ⟨l₂, noted, inside', same⟩ := inside.exists_noteCandidate
  obtain ⟨cursor, read, rest, _⟩ := fetch_text visible noted same front
  refine ⟨_, read, ?_, inside'.emit _ (.of_eq rest) false⟩
  have shorter : cs.length ≤ ((Json.escape s).toList ++ '"' :: cs).length := by simp; omega
  exact (congrArg List.length rest).le.trans shorter

/-- A word without quotes. -/
theorem Inside.literal {word more : List Char} (filled : word ≠ [])
    (literal : ∀ c ∈ word, c ∈ literalCharacters)
    (ends : ∃ space d after, IsSpacing space ∧ IsCloser d ∧ more = space ++ d :: after)
    (h : Inside (depth + 1) ts (word ++ more) l) :
    ∃ l', Leads l l' ∧
      Inside (depth + 1) (ts ++ [.scalar .plain (String.ofList word)]) more l' := by
  obtain ⟨space, d, after, spacing, closer, rfl⟩ := ends
  obtain ⟨c, word, rfl⟩ := List.exists_cons_of_ne_nil filled
  obtain ⟨solid, _, _, noIndicator, notDot, _⟩ :=
    plain_of_mem_literalCharacters (literal c List.mem_cons_self)
  have notComment : c ≠ '#' := by
    rintro rfl
    exact noIndicator (by decide)
  refine h.step solid notComment fun l₁ inside front _ => ?_
  obtain ⟨l₂, noted, inside', same⟩ := inside.exists_noteCandidate
  have inFlow : l₂.inFlow = true := by
    cases levels : l₂.outer with
    | nil =>
      have deep := inside'.depth
      simp [levels] at deep
    | cons => simp [Lexer.inFlow, levels]
  obtain ⟨cursor, newLine, taken, rest⟩ := takePlain_literal filled literal spacing closer
    (l₂.indent + 1).toNat (c := l₂.cursor) (same ▸ front)
  have gap : SameBut cursor.rest (space ++ d :: after) :=
    ⟨[], space, d :: after, isSpacing_nil, spacing, rest, rfl⟩
  refine ⟨_, ?_, ?_, inside'.emit (.scalar .plain (String.ofList (c :: word))) gap newLine⟩
  · have read : l₁.fetch c (word ++ (space ++ d :: after)) = l₁.plain := by
      have others : ∀ d ∈ indicators, c ≠ d := by
        rintro d hd rfl
        exact noIndicator hd
      have noMark := atDocumentMark_of_front front (others '-' (by decide)) notDot
      simp only [indicators, List.forall_mem_cons] at others
      simp [fetch, others, noMark, beginsPlain, noIndicator, solid.1, solid.2]
    refine read.trans ?_
    rw [Lexer.plain, noted, Option.bind_eq_bind, Option.bind_some, inFlow, taken]
    rfl
  · refine (congrArg List.length rest).le.trans ?_
    simp
    omega

/-- A name that is waiting for its colon. -/
structure Waits (name : Token) (l : Lexer) (k : Candidate) (earlier : List Item) : Prop where
  candidate : l.candidate = some k
  items : l.items = .token name :: .mark k.mark :: earlier
  later : ∀ m, .mark m ∈ earlier → m < k.mark
  unconfirmed : ∀ k' ∈ l.confirmed, k'.1 < k.mark

/-- Confirming the mark puts a key before the name and changes nothing else. -/
theorem Waits.tokens {name : Token} {k : Candidate} {earlier : List Item}
    (waits : Waits name l k earlier) (before : l.tokens = ts ++ [name]) {l' : Lexer}
    (items : l'.items = l.items) (confirmed : l'.confirmed = (k.mark, false) :: l.confirmed) :
    l'.tokens = ts ++ [.key, name] := by
  have others : ∀ item ∈ earlier.reverse,
      written ((k.mark, false) :: l.confirmed) item = written l.confirmed item := by
    intro item hitem
    cases item with
    | token => rfl
    | mark m =>
      have different : (m == k.mark) = false := by
        simpa using (waits.later m (List.mem_reverse.mp hitem)).ne
      simp [written, List.lookup_cons, different]
  have unconfirmed : written l.confirmed (.mark k.mark) = [] := by
    have none : l.confirmed.lookup k.mark = none := by
      rw [List.lookup_eq_none_iff]
      intro k' hk'
      simpa using (waits.unconfirmed k' hk').ne'
    simp [written, none]
  have token : ∀ confirmed, written confirmed (.token name) = [name] := fun _ => rfl
  have key : written ((k.mark, false) :: l.confirmed) (.mark k.mark) = [.key] := by
    simp [written]
  rw [tokens_eq, waits.items] at before
  rw [tokens_eq, items, confirmed, waits.items]
  simp [unconfirmed, token] at before
  simp [List.flatMap_congr others, before, key, token]

theorem value_inFlow {k : Candidate} (inFlow : l.inFlow = true) (candidate : l.candidate = some k) :
    l.value = some ({ l with
      candidate := none
      confirmed := (k.mark, false) :: l.confirmed
      cursor := l.cursor.skip 1
      keyAllowed := false }.emit .value) := by
  have shallow : l.isDeeper k.position.column = false := by simp [isDeeper, inFlow]
  rw [Lexer.value, candidate]
  simp only [shallow]
  rfl

/-- The colon after a name confirms its mark, on the same line and in time. -/
theorem Inside.confirms {name : Token} {k : Candidate} {earlier : List Item}
    (h : Inside (depth + 1) (ts ++ [name]) (':' :: cs) l) (front : l.cursor.rest = ':' :: cs)
    (waits : Waits name l k earlier) (line : k.position.line = l.cursor.position.line)
    (near : l.cursor.position.index ≤ k.position.index + 1024) :
    ∃ l', Leads l l' ∧ Inside (depth + 1) (ts ++ [.key, name, .value]) cs l' := by
  obtain ⟨p, allowed, skipped, _, same⟩ := exists_skipGap l.inFlow isSpacing_nil
    (begins_cons (c := ':') ⟨by decide, by decide⟩ (by decide) cs) l.keyAllowed l.cursor.position
  obtain ⟨rfl, rfl⟩ := same rfl
  obtain ⟨outer, expired, length, idle⟩ := exists_expire_outer l.cursor.position h.outer
  have fresh : expire l.cursor.position l.candidate = some l.candidate := by
    rw [waits.candidate, expire]
    simp [line]
    omega
  have aged : l.toToken.expireAll = some { l with outer := outer } := by
    rw [List.nil_append, ← front] at skipped
    simp [toToken, expireAll, skipped, expired, fresh]
  have inFlow : ({ l with outer := outer } : Lexer).inFlow = true := by
    have deep := length.trans h.depth
    cases outer with
    | nil => cases deep
    | cons => rfl
  have confirmed : Inside (depth + 1) (ts ++ [.key, name]) (':' :: cs)
      { l with outer := outer, candidate := none, confirmed := (k.mark, false) :: l.confirmed } :=
    { candidate := fun _ none => nomatch none
      outer := idle
      depth := length.trans h.depth
      indent := h.indent
      marks := h.marks
      confirmed := List.forall_mem_cons.mpr ⟨h.marks k.mark (by simp [waits.items]), h.confirmed⟩
      tokens := waits.tokens h.tokens rfl rfl
      rest := h.rest }
  have rest := rest_skip front
  have valued := confirmed.emit .value (.of_eq rest) false
  rw [List.append_assoc] at valued
  refine ⟨_, ⟨1, ?_, fun n => ?_⟩, valued⟩
  · rw [front]
    simp [Lexer.emit, rest]
    omega
  · have read : ({ l with outer := outer } : Lexer).fetch ':' cs =
        ({ l with outer := outer } : Lexer).value := by
      simp [fetch, atDocumentMark_of_front front, inFlow]
    rw [run_succ (ready_margin aged h.indent) front, read, value_inFlow inFlow waits.candidate]
    rfl

/-- A short name between quotes, with its colon. -/
theorem Inside.name {s : String} (visible : ∀ c ∈ s.toList, IsVisible c)
    (short : (Json.escape s).toList.length ≤ 1022) (allowed : l.keyAllowed = true)
    (h : Inside (depth + 1) ts ('"' :: (Json.escape s).toList ++ '"' :: ':' :: cs) l) :
    ∃ l', Leads l l' ∧ Inside (depth + 1) (ts ++ [.key, .scalar .quoted s, .value]) cs l' := by
  have waiting : ∃ l', Leads l l' ∧ Inside (depth + 1) (ts ++ [.scalar .quoted s]) (':' :: cs) l' ∧
      l'.cursor.rest = ':' :: cs ∧ ∃ k earlier, Waits (.scalar .quoted s) l' k earlier ∧
        k.position.line = l'.cursor.position.line ∧
        l'.cursor.position.index ≤ k.position.index + 1024 := by
    refine h.step ⟨by decide, by decide⟩ (by decide) fun l₁ inside front kept => ?_
    have noted := inside.noteCandidate
    rw [if_pos (kept allowed)] at noted
    obtain ⟨cursor, read, rest, ahead⟩ := fetch_text visible noted rfl front
    refine ⟨_, read, ?_, inside.noted.emit _ (.of_eq rest) false, rest, _, l₁.items,
      ⟨rfl, rfl, inside.marks, inside.confirmed⟩, ahead.line.symm, ?_⟩
    · have shorter : (':' :: cs).length ≤
          ((Json.escape s).toList ++ '"' :: ':' :: cs).length := by simp; omega
      exact (congrArg List.length rest).le.trans shorter
    · have passed := ahead.index
      rw [rest, front] at passed
      simp only [List.append_eq, List.length_cons, List.length_append] at passed
      change cursor.position.index ≤ l₁.cursor.position.index + 1024
      omega
  obtain ⟨l₁, leads, inside, front, k, earlier, waits, line, near⟩ := waiting
  obtain ⟨l₂, leads', inside'⟩ := inside.confirms front waits line near
  exact ⟨l₂, leads.trans leads', inside'⟩

/-- White space does not matter before a token. -/
theorem Inside.blank {space : List Char} (spacing : IsSpacing space)
    (h : Inside depth ts (space ++ cs) l) : Inside depth ts cs l :=
  { h with rest := h.rest.blank spacing }

/-! ## The end -/

/-- Outside of everything the run ends with the text. -/
theorem Inside.finishes (h : Inside depth ts [] l) (n : Nat) :
    ∃ l', run n l = some l' ∧ l'.tokens = ts := by
  obtain ⟨l₁, ready, inside, front, _⟩ := h.exists_ready fun _ none => nomatch none
  refine ⟨{ l₁ with candidate := none }, ?_, inside.tokens⟩
  rw [run_end ready front, finish, unroll_margin inside.indent (Int.le_refl _),
    inside.dropCandidate]

end Lexer
end BasicBlocks.Yaml
