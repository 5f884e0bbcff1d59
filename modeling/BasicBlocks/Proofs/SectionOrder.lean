import BasicBlocks.Proofs.Relocation

/-!
# Sections in any order

An address is translated by the first section that holds it, in exact arithmetic: sections may reach
past the last word, and an offset that does not fit a word is none. Where no two sections share
addresses, their order decides nothing. Where no two share bytes of the file, different addresses
have different offsets, and a table that is read through the sections is the one at the addresses,
entry by entry.
-/

namespace BasicBlocks

open Facts
open Utf8 (Bytes)

namespace Header

variable {h : Header}

/-- The address is at this offset of the file by the first section that holds it. -/
def IsPlacedAt (sections : List Section) (a : Word) (offset : Nat) : Prop :=
  ∃ before s after, sections = before ++ s :: after ∧ (∀ t ∈ before, a.toNat ∉ t.addresses) ∧
    a.toNat ∈ s.addresses ∧ offset = s.offset.toNat + (a.toNat - s.address.toNat) ∧
    offset < 2 ^ 64

theorem IsPlacedAt.lt {sections : List Section} {a : Word} {offset : Nat}
    (placed : IsPlacedAt sections a offset) : offset < 2 ^ 64 := by
  obtain ⟨_, _, _, _, _, _, _, fits⟩ := placed
  exact fits

/-- What is no sum of the section's offset and the distance into the section is no offset. -/
theorem fileOffset?_eq_iff_isPlacedAt {a k : Word} :
    h.fileOffset? a = some k ↔ IsPlacedAt h.sections a k.toNat := by
  rw [fileOffset?, Option.bind_eq_some_iff]
  constructor
  · rintro ⟨s, found, sum⟩
    obtain ⟨covered, before, after, split, first⟩ := List.find?_eq_some_iff_append.mp found
    have within := Section.covers_iff_mem_addresses.mp covered
    have exact := Word.add?_eq_some_iff.mp sum
    rw [UInt64.toNat_sub_of_le _ _ (UInt64.le_iff_toNat_le.mpr within.1)] at exact
    refine ⟨before, s, after, split, fun t ht inside => ?_, within, exact, k.toNat_lt⟩
    have uncovered := first t ht
    rw [Section.covers_iff_mem_addresses.mpr inside] at uncovered
    cases uncovered
  · rintro ⟨before, s, after, split, first, within, exact, _⟩
    refine ⟨s, List.find?_eq_some_iff_append.mpr ⟨?_, before, after, split, fun t ht => ?_⟩, ?_⟩
    · exact Section.covers_iff_mem_addresses.mpr within
    · have outside := mt Section.covers_iff_mem_addresses.mp (first t ht)
      simpa using outside
    · rw [Word.add?_eq_some_iff,
        UInt64.toNat_sub_of_le _ _ (UInt64.le_iff_toNat_le.mpr within.1), exact]

/-- Of sections that share no addresses, the one that holds an address is found in any order. -/
theorem find?_covers_of_perm {sections sections' : List Section}
    (apart : sections.Pairwise fun s t => Disjoint s.addresses t.addresses)
    (perm : sections.Perm sections') (a : Word) :
    sections'.find? (·.covers a) = sections.find? (·.covers a) := by
  cases found : sections.find? (·.covers a) with
  | none =>
    rw [List.find?_eq_none] at found ⊢
    exact fun s hs => found s (perm.mem_iff.mpr hs)
  | some s =>
    have covered : s.covers a = true := by simpa using List.find?_some found
    have hs : s ∈ sections := List.mem_of_find?_eq_some found
    have somewhere : (sections'.find? (·.covers a)).isSome :=
      List.find?_isSome.mpr ⟨s, perm.mem_iff.mp hs, covered⟩
    obtain ⟨t, found'⟩ := Option.isSome_iff_exists.mp somewhere
    have covered' : t.covers a = true := by simpa using List.find?_some found'
    have ht : t ∈ sections := perm.mem_iff.mpr (List.mem_of_find?_eq_some found')
    rw [found', Section.eq_of_apart apart ht hs (Section.covers_iff_mem_addresses.mp covered')
      (Section.covers_iff_mem_addresses.mp covered)]

end Header

/-! ## Rows of different addresses -/

section

variable {α : Type} {c : Columns α} {h : Header}

theorem isSound_identity {row : Bytes} (sound : IsSound c (.offsetTranslated h) row) :
    IsSound c .identity row := by
  obtain ⟨text, content, usableSound⟩ := sound
  refine ⟨text, content, fun usable => ?_⟩
  obtain ⟨address, size, _, passes, _⟩ := usableSound usable
  exact ⟨address, size, address, passes, rfl⟩

/-- An address of a sound row has a place. -/
theorem exists_fileOffset?_of_yields {row : Bytes} {a : Word} {v : α}
    (sound : IsSound c (.offsetTranslated h) row) (yields : Yields c .identity row a v) :
    ∃ k, h.fileOffset? a = some k := by
  obtain ⟨text, content, usableSound⟩ := sound
  obtain ⟨text', address, size, content', passes, here, _⟩ := yields
  obtain rfl : text = text' := Utf8.eq_of_encode_eq (content.symm.trans content')
  obtain rfl : address = a := Option.some.inj here
  obtain ⟨address', _, k, passes', placed⟩ := usableSound passes.usable
  obtain rfl : address' = address :=
    Except.ok.inj (passes'.addressRead.symm.trans passes.addressRead)
  exact ⟨k, placed⟩

/-- What is read through sections that share no bytes is what is read at the addresses, with every
entry at the offset of its address and none merged with another. -/
theorem read_relocates (apart : h.sections.Pairwise fun s t => Disjoint s.offsets t.offsets)
    {bytes : Bytes} {u : Table α}
    (translated : (read c.reader (.offsetTranslated h) bytes).result = .ok u) :
    ∃ t, (read c.reader .identity bytes).result = .ok t ∧
      t.Relocates h.fileOffset? (· = ·) u := by
  have moved := reads_read c (.offsetTranslated h) bytes
  have original := reads_read c .identity bytes
  have sound := moved.succeeds_iff.mp ⟨u, translated⟩
  obtain ⟨t, ht⟩ := original.succeeds_iff.mpr fun row hrow => isSound_identity (sound row hrow)
  refine ⟨t, ht, Table.relocates_of_get?
    (fun a b k => Header.fileOffset?_injective apart) ?_ ?_⟩
  · intro a v found
    have last := (original.get?_iff t ht a v).mp found
    obtain ⟨before, row, after, split, yields, _⟩ := last
    have hrow : row ∈ rows bytes := split ▸ List.mem_append_right before List.mem_cons_self
    obtain ⟨k, placed⟩ := exists_fileOffset?_of_yields (sound row hrow) yields
    have there := (moved.get?_iff u translated k v).mpr
      ((lastYields_translated_iff apart).mpr ⟨a, placed, (original.get?_iff t ht a v).mp found⟩)
    exact ⟨k, v, placed, there, rfl⟩
  · intro k v found
    obtain ⟨a, placed, last⟩ := (lastYields_translated_iff apart).mp
      ((moved.get?_iff u translated k v).mp found)
    exact ⟨a, v, placed, (original.get?_iff t ht a v).mpr last⟩

end

/-! ## The mapping -/

/-- The sections decide offsets exactly, by the first one that holds an address. Apart in memory,
they do so in any order. Apart in the file, they keep different addresses apart: no two rows of
different addresses fall together, and a table read through the sections has each entry of the table
at the addresses. -/
theorem sections_keep_addresses_apart (h : Header) :
    (∀ a offset, (∃ k, h.fileOffset? a = some k ∧ k.toNat = offset) ↔
      Header.IsPlacedAt h.sections a offset) ∧
    ((h.sections.Pairwise fun s t => Disjoint s.addresses t.addresses) →
      ∀ sections, h.sections.Perm sections →
        ({ h with sections } : Header).fileOffset? = h.fileOffset?) ∧
    ((h.sections.Pairwise fun s t => Disjoint s.offsets t.offsets) →
      (∀ a b k, (AddressSpace.offsetTranslated h).translate? a = some k →
        (AddressSpace.offsetTranslated h).translate? b = some k → a = b) ∧
      ∀ bytes,
        (∀ u, (readInstructions (.offsetTranslated h) bytes).result = .ok u →
          ∃ t, (readInstructions .identity bytes).result = .ok t ∧
            t.Relocates h.fileOffset? (· = ·) u) ∧
        (∀ u, (readBlocks (.offsetTranslated h) bytes).result = .ok u →
          ∃ t, (readBlocks .identity bytes).result = .ok t ∧
            t.Relocates h.fileOffset? (· = ·) u)) := by
  refine ⟨?_, ?_, ?_⟩
  · intro a offset
    constructor
    · rintro ⟨k, placed, rfl⟩
      exact Header.fileOffset?_eq_iff_isPlacedAt.mp placed
    · intro placed
      have value : (UInt64.ofNat offset).toNat = offset := Word.toNat_ofNat_of_lt placed.lt
      refine ⟨UInt64.ofNat offset, Header.fileOffset?_eq_iff_isPlacedAt.mpr ?_, value⟩
      rwa [value]
  · intro apart sections perm
    funext a
    exact congrArg (Option.bind · _) (Header.find?_covers_of_perm apart perm a)
  · intro apart
    refine ⟨fun a b k => Header.fileOffset?_injective apart, fun bytes => ⟨?_, ?_⟩⟩
    · rw [readInstructions, readInstructions, instructionRow_eq_reader]
      exact fun u => read_relocates apart
    · rw [readBlocks, readBlocks, blockRow_eq_reader]
      exact fun u => read_relocates apart

/-- One section reaches past the last address, the other past the last offset. -/
theorem sections_past_the_last_word_keep_addresses_apart :
    let text : Section := ⟨".text", 0xfffffffffffffff0, 0x20, 0x100⟩
    let data : Section := ⟨".data", 0x100, 0x10, 0xfffffffffffffff8⟩
    let h : Header := ⟨.elf, .executable, true, none, [text, data]⟩
    let reversed : Header := { h with sections := [data, text] }
    let bytes := Utf8.encode "256\t1\tnop\n18446744073709551600\t2\tret\n"
    reversed.fileOffset? = h.fileOffset? ∧ h.fileOffset? 0x107 = some Word.last ∧
      h.fileOffset? 0x108 = none ∧
      ∃ t u, (readInstructions .identity bytes).result = .ok t ∧
        (readInstructions (.offsetTranslated h) bytes).result = .ok u ∧
        u.keys = [0x100, 0xfffffffffffffff8] ∧ t.Relocates h.fileOffset? (· = ·) u := by
  intro text data h reversed bytes
  have addressesApart : h.sections.Pairwise fun s t => Disjoint s.addresses t.addresses := by
    simp [h, text, data, Section.addresses]
  have offsetsApart : h.sections.Pairwise fun s t => Disjoint s.offsets t.offsets := by
    simp [h, text, data, Section.offsets]
  have translated : (readInstructions (.offsetTranslated h) bytes).result =
      .ok (Table.ofList [(0x100, ⟨"ret", 2⟩), (0xfffffffffffffff8, ⟨"nop", 1⟩)]) := by
    decide +kernel
  obtain ⟨_, inAnyOrder, injective⟩ := sections_keep_addresses_apart h
  obtain ⟨t, read, relocates⟩ := ((injective offsetsApart).2 bytes).1 _ translated
  refine ⟨inAnyOrder addressesApart _ (List.Perm.swap data text []), by decide +kernel,
    by decide +kernel, t, _, read, translated, by decide +kernel, relocates⟩

end BasicBlocks
