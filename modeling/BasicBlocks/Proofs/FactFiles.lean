import BasicBlocks.Proofs.Numerals
import BasicBlocks.Proofs.Reconciliation

/-!
# Written fact files

A table is written with one line an entry, in any order. Addresses and sizes are in decimal or in
hexadecimal, the text of an instruction may be cut in two at a space, and after the size of a block
anything may follow. Reading such a file gives the table back, and skips no line. So reconciling two
files gives what the tables give.
-/

namespace BasicBlocks

namespace Facts

open Numeral (SpellsWord)
open Utf8 (encode encodeChar encodeChars)

variable {α : Type}

/-- A text that is one field: without tabs and terminators. -/
structure IsField (text : String) : Prop where
  noTab : '\t' ∉ text.toList
  noFeed : '\n' ∉ text.toList
  noReturn : '\r' ∉ text.toList

/-- The fields that are written of an instruction. Its text is one field, or it is cut at a space
that something follows. -/
inductive InstructionFields (address : Word) (i : Instruction) : List String → Prop
  | whole {a s : String} (ha : SpellsWord address a.toList) (hs : SpellsWord i.size s.toList) :
      InstructionFields address i [a, s, i.text]
  | cut {a s mnemonic operands : String} (ha : SpellsWord address a.toList)
      (hs : SpellsWord i.size s.toList) (text : i.text = mnemonic ++ " " ++ operands)
      (something : operands ≠ "") : InstructionFields address i [a, s, mnemonic, operands]

/-- The fields that are written of a block: start and size, and then any others. -/
inductive BlockFields (start size : Word) : List String → Prop
  | of {a s : String} {tail : List String} (ha : SpellsWord start a.toList)
      (hs : SpellsWord size s.toList) (follows : tail ≠ []) (clean : ∀ f ∈ tail, IsField f) :
      BlockFields start size (a :: s :: tail)

def row (fields : List String) : String := "\t".intercalate fields

def line (fields : List String) : String := row fields ++ "\n"

/-- The text has a line for each entry of the table, in any order. -/
def Lists (Fields : Word → α → List String → Prop) (t : Table α) (text : String) : Prop :=
  ∃ entries lines, entries.Perm t.entries ∧
    List.Forall₂ (fun e fields => Fields e.1 e.2 fields) entries lines ∧
    text = String.join (lines.map line)

/-- A terminator in an encoding is the encoding of a terminator. -/
theorem isTerminator_eq_false {text : String} (noFeed : '\n' ∉ text.toList)
    (noReturn : '\r' ∉ text.toList) : ∀ b ∈ encode text, isTerminator b = false := by
  intro b hb
  obtain ⟨c, hc, inside⟩ := List.mem_flatMap.mp hb
  rw [isTerminator, Bool.or_eq_false_iff]
  constructor
  · apply beq_false_of_ne
    rintro rfl
    exact noFeed (Utf8.eq_of_mem_encodeChar inside (by decide) ▸ hc)
  · apply beq_false_of_ne
    rintro rfl
    exact noReturn (Utf8.eq_of_mem_encodeChar inside (by decide) ▸ hc)

theorem encode_ne_nil {text : String} (h : text ≠ "") : encode text ≠ [] :=
  fun nothing => h (Utf8.eq_of_encode_eq (nothing.trans (show [] = encode "" from rfl)))

/-- A text that does not begin past ASCII does not begin with the mark. -/
theorem unmarked_encode {text : String} (ascii : ∀ c ∈ text.toList.head?, c.toNat < 0x80) :
    unmarked (encode text) = encode text := by
  have absent : byteOrderMark.isPrefixOf (encode text) = false := by
    cases chars : text.toList with
    | nil => simp [encode, encodeChars, chars, byteOrderMark]
    | cons c rest =>
      have small : c.toNat < 0x80 := ascii c (by simp [chars])
      have other : (0xef == UInt8.ofNat c.toNat) = false := by
        apply beq_false_of_ne
        intro same
        have value := Utf8.toNat_byte (n := c.toNat) (by omega)
        rw [← same] at value
        exact absurd small (by rw [← value]; decide)
      have first : encode text = UInt8.ofNat c.toNat :: encodeChars rest := by
        simp [encode, encodeChars, chars, encodeChar, small]
      rw [first, byteOrderMark, List.isPrefixOf_cons_cons, other, Bool.false_and]
  rw [unmarked, absent, if_neg Bool.false_ne_true]

theorem row_cons_cons (f g : String) (rest : List String) :
    row (f :: g :: rest) = f ++ "\t" ++ row (g :: rest) := by
  apply String.toList_injective
  simp [row, String.toList_intercalate]

theorem mem_row {fields : List String} {c : Char} (h : c ∈ (row fields).toList) :
    c = '\t' ∨ ∃ f ∈ fields, c ∈ f.toList := by
  induction fields with
  | nil => simp [row] at h
  | cons f rest ih =>
    cases rest with
    | nil => exact Or.inr ⟨f, by simp, by simpa [row, String.toList_intercalate] using h⟩
    | cons g rest =>
      rw [row_cons_cons] at h
      simp only [String.toList_append, List.mem_append] at h
      rcases h with (h | h) | h
      · exact Or.inr ⟨f, by simp, h⟩
      · exact Or.inl (by simpa using h)
      · rcases ih h with tab | ⟨later, hlater, hc⟩
        · exact Or.inl tab
        · exact Or.inr ⟨later, List.mem_cons_of_mem _ hlater, hc⟩

theorem cells_row {fields : List String} (nonempty : fields ≠ [])
    (clean : ∀ f ∈ fields, IsField f) : cells (row fields) = fields := by
  have apart : ∀ piece ∈ fields.map String.toList, '\t' ∉ piece := by
    intro piece hp
    obtain ⟨f, hf, rfl⟩ := List.mem_map.mp hp
    exact (clean f hf).noTab
  rw [cells, row, String.toList_intercalate]
  rw [show "\t".toList = ['\t'] from rfl,
    List.splitOn_intercalate '\t' apart (by simpa using nonempty)]
  simp

/-- What is written of an entry passes the checks of the table and says the entry. -/
structure IsWritten (c : Columns α) (address : Word) (value : α) (fields : List String) :
    Prop where
  clean : ∀ f ∈ fields, IsField f
  spelled : SpellsWord address (field fields 0).toList
  passes : ∃ size, Passes c fields address size ∧ value = c.value fields size

namespace IsWritten

variable {c : Columns α} {address : Word} {value : α} {fields : List String}

theorem exists_cons (h : IsWritten c address value fields) :
    ∃ first rest, fields = first :: rest ∧ SpellsWord address first.toList := by
  obtain ⟨size, passes, _⟩ := h.passes
  have long := passes.usable.1
  cases fields with
  | nil => simp at long
  | cons first rest => exact ⟨first, rest, rfl, h.spelled⟩

/-- A written row begins with a digit. -/
theorem exists_digit (h : IsWritten c address value fields) :
    ∃ d ∈ Numeral.digitCharacters, ∃ rest, (row fields).toList = d :: rest := by
  obtain ⟨first, later, rfl, spelled⟩ := h.exists_cons
  obtain ⟨d, digits, hd, isDigit⟩ := spelled.exists_digit
  cases later with
  | nil => exact ⟨d, isDigit, digits, by simpa [row, String.toList_intercalate] using hd⟩
  | cons g rest =>
    refine ⟨d, isDigit, digits ++ '\t' :: (row (g :: rest)).toList, ?_⟩
    rw [row_cons_cons]
    simp [hd]

theorem noTerminator (h : IsWritten c address value fields) :
    '\n' ∉ (row fields).toList ∧ '\r' ∉ (row fields).toList := by
  constructor
  · intro inside
    rcases mem_row inside with tab | ⟨f, hf, hc⟩
    · exact absurd tab (by decide)
    · exact (h.clean f hf).noFeed hc
  · intro inside
    rcases mem_row inside with tab | ⟨f, hf, hc⟩
    · exact absurd tab (by decide)
    · exact (h.clean f hf).noReturn hc

theorem yields (h : IsWritten c address value fields) :
    Yields c .identity (encode (row fields)) address value := by
  obtain ⟨first, later, rfl, _⟩ := h.exists_cons
  obtain ⟨size, passes, rfl⟩ := h.passes
  have cut := cells_row (List.cons_ne_nil first later) h.clean
  exact ⟨row (first :: later), address, size, rfl, cut.symm ▸ passes, rfl, by rw [cut]⟩

end IsWritten

section

variable {c : Columns α} {entries : List (Word × α)} {lines : List (List String)}
  (h : List.Forall₂ (fun e fields => IsWritten c e.1 e.2 fields) entries lines)

include h

theorem runs_lines :
    runs (encode (String.join (lines.map line))) = lines.map fun fields => encode (row fields) := by
  induction h with
  | nil => rfl
  | @cons e fields entries rest written _ ih =>
    obtain ⟨noFeed, noReturn⟩ := written.noTerminator
    obtain ⟨d, _, more, begins⟩ := written.exists_digit
    have something : row fields ≠ "" := by
      intro nothing
      rw [nothing] at begins
      cases begins
    have front : encode (String.join ((fields :: rest).map line)) =
        encode (row fields) ++ lineFeed :: encode (String.join (rest.map line)) := by
      simp [line, encode, encodeChars, encodeChar, lineFeed]
    rw [front, runs_append (encode_ne_nil something) (isTerminator_eq_false noFeed noReturn)
      (by simp [isTerminator])]
    rw [List.drop_one, List.tail_cons, ih, List.map_cons]

theorem rows_lines :
    rows (encode (String.join (lines.map line))) = lines.map fun fields => encode (row fields) := by
  have ascii : ∀ ch ∈ (String.join (lines.map line)).toList.head?, ch.toNat < 0x80 := by
    cases h with
    | nil => simp
    | cons written _ =>
      obtain ⟨d, isDigit, more, begins⟩ := written.exists_digit
      have small : Numeral.digitCharacters.all (·.toNat < 0x80) = true := by decide
      simpa [line, begins] using List.all_eq_true.mp small d isDigit
  rw [rows, unmarked_encode ascii, runs_lines h]

end

/-- Where every record says something, none is skipped. -/
theorem readRecords_of_yields {c : Columns α} {space : AddressSpace} {entries : List (Word × α)}
    {rs : List Record}
    (h : List.Forall₂ (fun e r => Yields c space r.content e.1 e.2) entries rs) :
    readRecords c.reader space rs = ⟨[], .ok entries⟩ := by
  induction h with
  | nil => rfl
  | cons yields _ ih =>
    rw [readRecords, judge_of_yields yields, ih]
    rfl

theorem read_lines {Fields : Word → α → List String → Prop} {c : Columns α} {t : Table α}
    {text : String}
    (written : ∀ e ∈ t.entries, ∀ fields, Fields e.1 e.2 fields → IsWritten c e.1 e.2 fields)
    (h : Lists Fields t text) : read c.reader .identity (encode text) = ⟨[], .ok t⟩ := by
  obtain ⟨entries, lines, perm, listed, rfl⟩ := h
  have all : List.Forall₂ (fun e fields => IsWritten c e.1 e.2 fields) entries lines := by
    have member : ∀ e ∈ entries, e ∈ t.entries := fun e he => perm.mem_iff.mp he
    have paired := (List.forall₂_and_left entries lines).mpr ⟨member, listed⟩
    exact paired.imp fun e fields both => written e both.1 fields both.2
  have said : List.Forall₂ (fun e content => Yields c .identity content e.1 e.2) entries
      ((records (encode (String.join (lines.map line)))).map (·.content)) := by
    rw [map_content_records, rows_lines all]
    exact List.forall₂_map_right_iff.mpr (all.imp fun _ _ written => written.yields)
  rw [read, readRecords_of_yields (List.forall₂_map_right_iff.mp said)]
  exact congrArg (fun t => (⟨[], .ok t⟩ : Reading (Table α))) (Table.ofList_of_perm perm)

/-- A spelled number is one field, and it is read. -/
theorem isField_of_spellsWord {w : Word} {s : String} (h : SpellsWord w s.toList) : IsField s := by
  have inside : ∀ c ∈ s.toList, c ∈ 'x' :: 'X' :: Numeral.digitCharacters := h.subset
  refine ⟨?_, ?_, ?_⟩
  · exact fun tab => absurd (inside _ tab) (by decide)
  · exact fun feed => absurd (inside _ feed) (by decide)
  · exact fun ret => absurd (inside _ ret) (by decide)

theorem readInteger_of_spellsWord {w : Word} {s : String} (h : SpellsWord w s.toList)
    (column : FactColumn) : readInteger column s = .ok w := by
  simp only [readInteger, h.trim, Numeral.readPrefixedWord?_of_spellsWord h]

theorem ne_empty_of_spellsWord {w : Word} {s : String} (h : SpellsWord w s.toList) : s ≠ "" := by
  obtain ⟨d, rest, begins, _⟩ := h.exists_digit
  rintro rfl
  cases begins

theorem isWritten_of_instructionFields {address : Word} {i : Instruction} {fields : List String}
    (positive : i.size ≠ 0) (clean : IsField i.text) (h : InstructionFields address i fields) :
    IsWritten instructionColumns address i fields := by
  cases h with
  | @whole a s ha hs =>
    refine ⟨?_, ha, i.size, ⟨⟨by simp, ne_empty_of_spellsWord ha⟩, readInteger_of_spellsWord ha _,
      readInteger_of_spellsWord hs _, fun zero => absurd zero positive⟩, rfl⟩
    intro f hf
    simp only [List.mem_cons, List.not_mem_nil, or_false] at hf
    rcases hf with rfl | rfl | rfl
    · exact isField_of_spellsWord ha
    · exact isField_of_spellsWord hs
    · exact clean
  | @cut a s mnemonic operands ha hs text something =>
    have inside : ∀ c, c ∈ mnemonic.toList ∨ c ∈ operands.toList → c ∈ i.text.toList := by
      intro c hc
      rw [text]
      rcases hc with hc | hc <;> simp [hc]
    refine ⟨?_, ha, i.size, ⟨⟨by simp, ne_empty_of_spellsWord ha⟩, readInteger_of_spellsWord ha _,
      readInteger_of_spellsWord hs _, fun zero => absurd zero positive⟩, ?_⟩
    · intro f hf
      simp only [List.mem_cons, List.not_mem_nil, or_false] at hf
      rcases hf with rfl | rfl | rfl | rfl
      · exact isField_of_spellsWord ha
      · exact isField_of_spellsWord hs
      · exact ⟨fun h => clean.noTab (inside _ (Or.inl h)),
          fun h => clean.noFeed (inside _ (Or.inl h)),
          fun h => clean.noReturn (inside _ (Or.inl h))⟩
      · exact ⟨fun h => clean.noTab (inside _ (Or.inr h)),
          fun h => clean.noFeed (inside _ (Or.inr h)),
          fun h => clean.noReturn (inside _ (Or.inr h))⟩
    · have joined : instructionColumns.value [a, s, mnemonic, operands] i.size =
          ⟨if operands = "" then mnemonic else mnemonic ++ " " ++ operands, i.size⟩ := rfl
      rw [joined, if_neg something, ← text]

theorem isWritten_of_blockFields {start size : Word} {fields : List String}
    (h : BlockFields start size fields) : IsWritten blockColumns start size fields := by
  cases h with
  | @of a s tail ha hs follows clean =>
    have long : 3 ≤ (a :: s :: tail).length := by
      have := List.length_pos_iff.mpr follows
      simp only [List.length_cons]
      omega
    refine ⟨?_, ha, size, ⟨⟨long, ne_empty_of_spellsWord ha⟩, readInteger_of_spellsWord ha _,
      readInteger_of_spellsWord hs _, fun _ => rfl⟩, rfl⟩
    intro f hf
    rcases List.mem_cons.mp hf with rfl | hf
    · exact isField_of_spellsWord ha
    rcases List.mem_cons.mp hf with rfl | hf
    · exact isField_of_spellsWord hs
    · exact clean f hf

/-- Every table can be written. -/
theorem exists_lists {Fields : Word → α → List String → Prop}
    (some : ∀ address value, ∃ fields, Fields address value fields) (t : Table α) :
    ∃ text, Lists Fields t text := by
  obtain ⟨lines, listed⟩ := exists_forall₂ (R := fun e fields => Fields e.1 e.2 fields)
    (l := t.entries) fun e _ => some e.1 e.2
  exact ⟨_, t.entries, lines, .refl _, listed, rfl⟩

theorem exists_instructionFields (address : Word) (i : Instruction) :
    ∃ fields, InstructionFields address i fields :=
  ⟨_, .whole (Numeral.spellsWord_decimal address) (Numeral.spellsWord_decimal i.size)⟩

theorem exists_blockFields (start size : Word) : ∃ fields, BlockFields start size fields := by
  have clean : ∀ f ∈ [""], IsField f := by
    intro f hf
    rw [List.mem_singleton.mp hf]
    exact ⟨by simp, by simp, by simp⟩
  exact ⟨_,
    .of (Numeral.spellsWord_decimal start) (Numeral.spellsWord_decimal size) (by simp) clean⟩

end Facts

open Facts Population

/-- Reading undoes writing. Files that list two tables are read back as these, and reconciled to
what the tables give: the populated blocks with the listing, or the gap. -/
theorem written_tables_read_back {instructions : InstructionTable} {blocks : BlockTable}
    (positive : ∀ a i, instructions.get? a = some i → i.size ≠ 0)
    (clean : ∀ a i, instructions.get? a = some i → IsField i.text)
    {instructionLines blockLines : String}
    (instructionsListed : Lists InstructionFields instructions instructionLines)
    (blocksListed : Lists BlockFields blocks blockLines)
    (instructionPath blockPath : String) (scope : Scope) :
    readInstructions .identity (Utf8.encode instructionLines) = ⟨[], .ok instructions⟩ ∧
    readBlocks .identity (Utf8.encode blockLines) = ⟨[], .ok blocks⟩ ∧
    (reconcile ⟨instructionPath, some (Utf8.encode instructionLines)⟩
        ⟨blockPath, some (Utf8.encode blockLines)⟩ .identity scope).result =
      match (populate blocks instructions).2 with
      | .ok populated => .ok ⟨listing scope populated instructions, populated⟩
      | .error gap => .error ⟨.blocksParsed, .gap gap.block gap.address⟩ := by
  have instructionsRead : readInstructions .identity (Utf8.encode instructionLines) =
      ⟨[], .ok instructions⟩ := by
    rw [readInstructions, instructionRow_eq_reader]
    refine read_lines (fun e he fields written => ?_) instructionsListed
    have found := (instructions.mem_entries_iff e.1 e.2).mp he
    exact isWritten_of_instructionFields (positive _ _ found) (clean _ _ found) written
  have blocksRead : readBlocks .identity (Utf8.encode blockLines) = ⟨[], .ok blocks⟩ := by
    rw [readBlocks, blockRow_eq_reader]
    exact read_lines (fun e _ fields written => isWritten_of_blockFields written) blocksListed
  have instructionsFound : (FactFile.read instructionRow .identity
      ⟨instructionPath, some (Utf8.encode instructionLines)⟩).2 = .ok instructions :=
    read_eq_ok_iff.mpr ⟨_, rfl, congrArg Reading.result instructionsRead⟩
  have blocksFound : (FactFile.read blockRow .identity
      ⟨blockPath, some (Utf8.encode blockLines)⟩).2 = .ok blocks :=
    read_eq_ok_iff.mpr ⟨_, rfl, congrArg Reading.result blocksRead⟩
  refine ⟨instructionsRead, blocksRead, ?_⟩
  rw [reconcile_result, instructionsFound, blocksFound]
  dsimp only
  cases (populate blocks instructions).2 with
  | error gap => rfl
  | ok populated => rfl

/-- Lines in another order than the entries, numbers in several spellings, and a text that is cut at
the first of two spaces. -/
theorem shuffled_files_read_back :
    let instructions : InstructionTable :=
      .ofList [(16, ⟨"nop", 4⟩), (20, ⟨"mov  a, b", 10⟩), (30, ⟨"", 1⟩)]
    let blocks : BlockTable := .ofList [(16, 14), (20, 11)]
    let populated : Table Block :=
      .ofList [(16, ⟨16, [⟨16, "nop"⟩, ⟨20, "mov  a, b"⟩]⟩),
        (20, ⟨20, [⟨20, "mov  a, b"⟩, ⟨30, ""⟩]⟩)]
    let instructionLines := "0x14\t0X0a\tmov\t a, b\n" ++ "16\t4\tnop\n" ++ "030\t1\t\n"
    let blockLines := "20\t0xB\tb\t\n" ++ "0X10\t14\t\n"
    readInstructions .identity (Utf8.encode instructionLines) = ⟨[], .ok instructions⟩ ∧
    readBlocks .identity (Utf8.encode blockLines) = ⟨[], .ok blocks⟩ ∧
    (reconcile ⟨"i", some (Utf8.encode instructionLines)⟩ ⟨"b", some (Utf8.encode blockLines)⟩
      .identity .cfg).result = .ok ⟨listing .cfg populated instructions, populated⟩ := by
  intro instructions blocks populated instructionLines blockLines
  have decimal {w : Word} {cs : List Char} (h : Numeral.read? 10 cs = some w.toNat) :
      Numeral.SpellsWord w cs := .decimal ((Numeral.spells_iff_read? (by decide)).mpr h)
  have hexadecimal {w : Word} {mark : Char} {cs : List Char} (marked : mark = 'x' ∨ mark = 'X')
      (h : Numeral.read? 16 cs = some w.toNat) : Numeral.SpellsWord w ('0' :: mark :: cs) :=
    .hexadecimal marked ((Numeral.spells_iff_read? (by decide)).mpr h)
  have instructionsListed : Lists InstructionFields instructions instructionLines := by
    refine ⟨[(20, ⟨"mov  a, b", 10⟩), (16, ⟨"nop", 4⟩), (30, ⟨"", 1⟩)],
      [["0x14", "0X0a", "mov", " a, b"], ["16", "4", "nop"], ["030", "1", ""]], by decide +kernel,
      ?_, by decide +kernel⟩
    refine .cons (.cut (hexadecimal ?_ ?_) (hexadecimal ?_ ?_) ?_ ?_)
      (.cons (.whole (decimal ?_) (decimal ?_)) (.cons (.whole (decimal ?_) (decimal ?_)) .nil))
    all_goals decide
  have blocksListed : Lists BlockFields blocks blockLines := by
    refine ⟨[(20, 11), (16, 14)], [["20", "0xB", "b", ""], ["0X10", "14", ""]], by decide +kernel,
      ?_, by decide +kernel⟩
    have clean : ∀ f ∈ ["b", ""], IsField f := by
      intro f hf
      simp only [List.mem_cons, List.not_mem_nil, or_false] at hf
      rcases hf with rfl | rfl <;> exact ⟨by decide, by decide, by decide⟩
    refine .cons (.of (decimal ?_) (hexadecimal ?_ ?_) ?_ clean)
      (.cons (.of (hexadecimal ?_ ?_) (decimal ?_) ?_ fun f hf => clean f (by simp_all)) .nil)
    all_goals decide
  have positive : ∀ a i, instructions.get? a = some i → i.size ≠ 0 := by
    intro a i found
    have sizes : ∀ e ∈ instructions.entries, e.2.size ≠ 0 := by decide +kernel
    exact sizes (a, i) ((instructions.mem_entries_iff a i).mpr found)
  have clean : ∀ a i, instructions.get? a = some i → IsField i.text := by
    intro a i found
    have texts : ∀ e ∈ instructions.entries, '\t' ∉ e.2.text.toList ∧ '\n' ∉ e.2.text.toList ∧
        '\r' ∉ e.2.text.toList := by decide +kernel
    obtain ⟨noTab, noFeed, noReturn⟩ := texts (a, i) ((instructions.mem_entries_iff a i).mpr found)
    exact ⟨noTab, noFeed, noReturn⟩
  have walked : (populate blocks instructions).2 = .ok populated := by decide +kernel
  have back := written_tables_read_back positive clean instructionsListed blocksListed "i" "b" .cfg
  rwa [walked] at back

end BasicBlocks
