import BasicBlocks.Proofs.Reconciliation
import BasicBlocks.Proofs.Sections

/-!
# Reconciliation at file offsets

Where the sections are apart, reading the fact files through the sections moves what they say from
addresses to file offsets and changes nothing else. The walk of a block that lies in its section
keeps step with the walk over the offsets: both take the same instructions, and neither meets what
another section has put next to it on the disk.
-/

namespace BasicBlocks

open Facts Population
open Utf8 (Bytes)

universe u

variable {α : Type u}

/-- The one table holds at the offset of an address what the other holds at the address, and
nothing else; all addresses lie in sections. -/
structure Translates (h : Header) (t u : Table α) : Prop where
  placed : ∀ a v, t.get? a = some v → h.Places a
  get?_iff : ∀ k v, u.get? k = some v ↔ ∃ a, h.fileOffset? a = some k ∧ t.get? a = some v

theorem Translates.exists_moved {h : Header} {t u : Table α} (translates : Translates h t u)
    (laidOut : h.IsLaidOut) {a : Word} {v : α} (found : t.get? a = some v) :
    ∃ k, h.fileOffset? a = some k ∧ u.get? k = some v := by
  obtain ⟨k, moved⟩ := Header.exists_fileOffset? laidOut (translates.placed a v found)
  exact ⟨k, moved, (translates.get?_iff k v).mpr ⟨a, moved, found⟩⟩

namespace Facts

variable {h : Header} {γ : Type} {c : Columns γ}

theorem yields_translated_iff {row : Bytes} {k : Word} {v : γ} :
    Yields c (.offsetTranslated h) row k v ↔
      ∃ a, Yields c .identity row a v ∧ h.fileOffset? a = some k := by
  constructor
  · rintro ⟨text, address, size, content, passes, moved, rfl⟩
    exact ⟨address, ⟨text, address, size, content, passes, rfl, rfl⟩, moved⟩
  · rintro ⟨a, ⟨text, address, size, content, passes, same, rfl⟩, moved⟩
    obtain rfl : address = a := Option.some.inj same
    exact ⟨text, address, size, content, passes, moved, rfl⟩

theorem isSound_translated (laidOut : h.IsLaidOut) {row : Bytes}
    (placed : ∀ a v, Yields c .identity row a v → h.Places a) (sound : IsSound c .identity row) :
    IsSound c (.offsetTranslated h) row := by
  obtain ⟨text, content, usableSound⟩ := sound
  refine ⟨text, content, ?_⟩
  intro usable
  obtain ⟨address, size, _, passes, _⟩ := usableSound usable
  have here := placed address _ ⟨text, address, size, content, passes, rfl, rfl⟩
  obtain ⟨k, moved⟩ := Header.exists_fileOffset? laidOut here
  exact ⟨address, size, k, passes, moved⟩

/-- Rows of different addresses stay apart, so the same rows stand last. -/
theorem lastYields_translated_iff
    (apart : h.sections.Pairwise fun s t => Disjoint s.offsets t.offsets) {rows : List Bytes}
    {k : Word} {v : γ} :
    LastYields c (.offsetTranslated h) rows k v ↔
      ∃ a, h.fileOffset? a = some k ∧ LastYields c .identity rows a v := by
  constructor
  · rintro ⟨before, row, after, heq, yields, hlast⟩
    obtain ⟨a, yields', moved⟩ := yields_translated_iff.mp yields
    refine ⟨a, moved, before, row, after, heq, yields', ?_⟩
    intro later hlater other more
    exact hlast later hlater other (yields_translated_iff.mpr ⟨a, more, moved⟩)
  · rintro ⟨a, moved, before, row, after, heq, yields, hlast⟩
    refine ⟨before, row, after, heq, yields_translated_iff.mpr ⟨a, yields, moved⟩, ?_⟩
    intro later hlater other more
    obtain ⟨b, more', moved'⟩ := yields_translated_iff.mp more
    obtain rfl : b = a := Header.fileOffset?_injective apart moved' moved
    exact hlast later hlater other more'

/-- A file that is read at its addresses is read through the sections as well. -/
theorem exists_translated (laidOut : h.IsLaidOut) {bytes : Bytes} {t : Table γ}
    (placed : ∀ row ∈ rows bytes, ∀ a v, Yields c .identity row a v → h.Places a)
    (ht : (read c.reader .identity bytes).result = .ok t) :
    ∃ u, (read c.reader (.offsetTranslated h) bytes).result = .ok u ∧ Translates h t u := by
  have original := reads_read c .identity bytes
  have translated := reads_read c (.offsetTranslated h) bytes
  have sound := original.succeeds_iff.mp ⟨t, ht⟩
  obtain ⟨u, hu⟩ := translated.succeeds_iff.mpr fun row hrow =>
    isSound_translated laidOut (placed row hrow) (sound row hrow)
  refine ⟨u, hu, ?_, ?_⟩
  · intro a v hv
    have listed : a ∈ t.keys := (t.mem_keys_iff a).mpr ⟨v, hv⟩
    obtain ⟨row, hrow, w, yields⟩ := (original.keys_iff t ht a).mp listed
    exact placed row hrow a w yields
  · intro k v
    simp only [translated.get?_iff u hu, lastYields_translated_iff laidOut.offsetsApart,
      original.get?_iff t ht]

theorem exists_instructions_translated (laidOut : h.IsLaidOut) {bytes : Bytes}
    {t : InstructionTable}
    (placed : ∀ row ∈ rows bytes, ∀ a i, Yields instructionColumns .identity row a i → h.Places a)
    (ht : (readInstructions .identity bytes).result = .ok t) :
    ∃ u, (readInstructions (.offsetTranslated h) bytes).result = .ok u ∧ Translates h t u := by
  rw [readInstructions, instructionRow_eq_reader] at ht ⊢
  exact exists_translated laidOut placed ht

theorem exists_blocks_translated (laidOut : h.IsLaidOut) {bytes : Bytes} {t : BlockTable}
    (placed : ∀ row ∈ rows bytes, ∀ a n, Yields blockColumns .identity row a n → h.Places a)
    (ht : (readBlocks .identity bytes).result = .ok t) :
    ∃ u, (readBlocks (.offsetTranslated h) bytes).result = .ok u ∧ Translates h t u := by
  rw [readBlocks, blockRow_eq_reader] at ht ⊢
  exact exists_translated laidOut placed ht

end Facts

namespace Population

/-- Two walks whose cursors keep related visit related addresses, with the same texts, and come to
the same kind of end. -/
theorem walk_simulation {t u : InstructionTable} {e f : Word} {R : Word → Word → Prop}
    (below : ∀ a k, R a k → (a < e ↔ k < f))
    (look : ∀ a k, R a k → a < e → t.get? a = u.get? k)
    (step : ∀ a k i, R a k → a < e → t.get? a = some i → R (next a i.size) (next k i.size))
    (a k : Word) (related : R a k) :
    List.Forall₂ (fun m m' => (R m.address m'.address ∧ m.address < e) ∧ m'.text = m.text)
        (walk t e a).visited (walk u f k).visited ∧
      ((∃ b, (walk t e a).ending = .missing b) ↔ ∃ b, (walk u f k).ending = .missing b) := by
  induction a using walk_induction t e generalizing k with
  | past a notBelow =>
    have notBelow' : ¬ k < f := fun lower => notBelow ((below a k related).mpr lower)
    rw [walk_past notBelow, walk_past notBelow']
    exact ⟨.nil, by simp⟩
  | missing a lower absent =>
    have lower' := (below a k related).mp lower
    have absent' : u.get? k = none := (look a k related lower).symm.trans absent
    rw [walk_missing lower absent, walk_missing lower' absent']
    exact ⟨.nil, by simp⟩
  | step a i lower found ih =>
    have lower' := (below a k related).mp lower
    have found' : u.get? k = some i := (look a k related lower).symm.trans found
    rw [walk_step lower found, walk_step lower' found']
    obtain ⟨visited, ending⟩ := ih _ (step a k i related lower found)
    exact ⟨.cons ⟨⟨related, lower⟩, rfl⟩ visited, ending⟩

/-- A block from `v` of size `n` that stays within its section and ends at a word. -/
structure LiesIn (s : Section) (v n : Word) : Prop where
  start : v.toNat ∈ s.addresses
  fits : v.toNat + n.toNat ≤ 2 ^ 64 - 1
  within : Set.Ico v.toNat (v.toNat + n.toNat) ⊆ s.addresses

theorem liesIn_iff {s : Section} {v n : Word} :
    LiesIn s v n ↔ v.toNat ∈ s.addresses ∧ v.toNat + n.toNat ≤ 2 ^ 64 - 1 ∧
      v.toNat + n.toNat ≤ s.address.toNat + s.size.toNat := by
  constructor
  · intro h
    have start := Set.mem_Ico.mp h.start
    refine ⟨h.start, h.fits, ?_⟩
    by_cases empty : n.toNat = 0
    · omega
    · have last : v.toNat + n.toNat - 1 ∈ Set.Ico v.toNat (v.toNat + n.toNat) :=
        Set.mem_Ico.mpr ⟨by omega, by omega⟩
      have inside := Set.mem_Ico.mp (h.within last)
      omega
  · rintro ⟨start, fits, reach⟩
    exact ⟨start, fits, Set.Ico_subset_Ico start.1 reach⟩

/-- Below the stops the cursors are equally far into the section and into its bytes; past the one
stop they are past the other. -/
def InStep (s : Section) (e f a k : Word) : Prop :=
  (a < e ∧ s.address ≤ a ∧ k.toNat + s.address.toNat = a.toNat + s.offset.toNat) ∨
    (¬ a < e ∧ ¬ k < f)

section

variable {h : Header} {s : Section} {v n k : Word}

theorem toNat_stop_of_liesIn (lies : LiesIn s v n) :
    (stop v n).toNat = v.toNat + n.toNat := by
  have fits := lies.fits
  rw [toNat_stop, extent]
  omega

theorem toNat_stop_moved (room : s.offset.toNat + s.size.toNat ≤ 2 ^ 64 - 1)
    (lies : LiesIn s v n) (moved : k.toNat + s.address.toNat = v.toNat + s.offset.toNat) :
    (stop k n).toNat = k.toNat + n.toNat := by
  obtain ⟨_, _, reach⟩ := liesIn_iff.mp lies
  rw [toNat_stop, extent]
  omega

/-- The walk over a block and the one over its bytes visit the same instructions. No sum is clipped
below either stop, and an offset below the stop is that of no address in another section. -/
theorem walk_in_step {t u : InstructionTable} (laidOut : h.IsLaidOut) (hs : s ∈ h.sections)
    (lies : LiesIn s v n) (moved : h.fileOffset? v = some k) (translates : Translates h t u) :
    List.Forall₂ (fun m m' => h.fileOffset? m.address = some m'.address ∧ m'.text = m.text)
        (walk t (stop v n) v).visited (walk u (stop k n) k).visited ∧
      ((∃ b, (walk t (stop v n) v).ending = .missing b) ↔
        ∃ b, (walk u (stop k n) k).ending = .missing b) := by
  have room := laidOut.offsetsFit s hs
  obtain ⟨_, fits, reach⟩ := liesIn_iff.mp lies
  have begins := Set.mem_Ico.mp lies.start
  have start := (Header.fileOffset?_eq_some_iff laidOut hs lies.start k).mp moved
  have e := toNat_stop_of_liesIn lies
  have f := toNat_stop_moved room lies start
  have offset : ∀ a b, InStep s (stop v n) (stop k n) a b → a < stop v n →
      h.fileOffset? a = some b := by
    intro a b related lower
    rcases related with ⟨_, above, distance⟩ | ⟨notLower, _⟩
    · rw [UInt64.le_iff_toNat_le] at above
      rw [UInt64.lt_iff_toNat_lt] at lower
      have inside : a.toNat ∈ s.addresses := Set.mem_Ico.mpr ⟨above, by omega⟩
      exact (Header.fileOffset?_eq_some_iff laidOut hs inside b).mpr distance
    · exact absurd lower notLower
  have below : ∀ a b, InStep s (stop v n) (stop k n) a b → (a < stop v n ↔ b < stop k n) := by
    intro a b related
    rcases related with ⟨lower, above, distance⟩ | ⟨notLower, notLower'⟩
    · simp only [UInt64.lt_iff_toNat_lt, e, f] at lower ⊢
      omega
    · exact iff_of_false notLower notLower'
  -- An offset below the stop is that of the cursor and of no other address, whatever its neighbours.
  have look : ∀ a b, InStep s (stop v n) (stop k n) a b → a < stop v n → t.get? a = u.get? b := by
    intro a b related lower
    refine Option.ext fun i => ?_
    rw [translates.get?_iff b i]
    constructor
    · intro found
      exact ⟨a, offset a b related lower, found⟩
    · rintro ⟨a', placed, found⟩
      rw [Header.fileOffset?_injective laidOut.offsetsApart (offset a b related lower) placed]
      exact found
  have step : ∀ a b i, InStep s (stop v n) (stop k n) a b → a < stop v n → t.get? a = some i →
      InStep s (stop v n) (stop k n) (next a i.size) (next b i.size) := by
    intro a b i related lower _
    rcases related with ⟨_, above, distance⟩ | ⟨notLower, _⟩
    · have forward := toNat_next a i.size
      have forward' := toNat_next b i.size
      simp only [InStep, UInt64.lt_iff_toNat_lt, UInt64.le_iff_toNat_le, e, f] at lower above ⊢
      omega
    · exact absurd lower notLower
  -- A block of size zero starts at its stop, so the walks may begin past it.
  have together : InStep s (stop v n) (stop k n) v k := by
    simp only [InStep, UInt64.lt_iff_toNat_lt, UInt64.le_iff_toNat_le, e, f]
    omega
  obtain ⟨visited, ending⟩ := walk_simulation below look step v k together
  refine ⟨visited.imp ?_, ending⟩
  rintro m m' ⟨⟨related, lower⟩, text⟩
  exact ⟨offset m.address m'.address related lower, text⟩

end

end Population

/-- The members stand in the order in which they stood, each with its text. -/
structure Block.Relocates (place : Word → Option Word) (b b' : Block) : Prop where
  start : place b.start = some b'.start
  members : List.Forall₂ (fun m m' => place m.address = some m'.address ∧ m'.text = m.text)
    b.members b'.members

structure Reconciled.Relocates (place : Word → Option Word) (r r' : Reconciled) : Prop where
  instructions : r.instructions.Relocates place (· = ·) r'.instructions
  blocks : r.blocks.Relocates place (Block.Relocates place) r'.blocks

namespace Population

variable {h : Header}

theorem broken_iff_missing {instructions : InstructionTable} {s n : Word} :
    (∃ a, BreaksAt instructions (extent s n) s a) ↔
      ∃ a, (walk instructions (stop s n) s).ending = .missing a := by
  simp only [ending_eq_missing_iff, toNat_stop]

theorem populateBlock_in_step {t u : InstructionTable} {s : Section} {v n k : Word}
    (laidOut : h.IsLaidOut) (hs : s ∈ h.sections) (lies : LiesIn s v n)
    (moved : h.fileOffset? v = some k) (translates : Translates h t u) :
    ((∃ b, populateBlock t v n = .ok b) ↔ ∃ b, populateBlock u k n = .ok b) ∧
      ∀ b b', populateBlock t v n = .ok b → populateBlock u k n = .ok b' →
        b.Relocates h.fileOffset? b' := by
  obtain ⟨visited, ending⟩ := walk_in_step laidOut hs lies moved translates
  constructor
  · simp only [populateBlock_ok_iff_unbroken, ← not_exists, broken_iff_missing, ending]
  · intro b b' hb hb'
    obtain ⟨_, rfl⟩ := populateBlock_eq_ok_iff.mp hb
    obtain ⟨_, rfl⟩ := populateBlock_eq_ok_iff.mp hb'
    exact ⟨moved, visited⟩

section

variable {t u : InstructionTable} {blocks blocks' : BlockTable} (laidOut : h.IsLaidOut)
  (instructionsMoved : Translates h t u) (blocksMoved : Translates h blocks blocks')
  (lie : ∀ v n, blocks.get? v = some n → ∃ s ∈ h.sections, LiesIn s v n)

include laidOut instructionsMoved blocksMoved lie

theorem populate_ok_iff_moved :
    (∃ p, (populate blocks t).2 = .ok p) ↔ ∃ p, (populate blocks' u).2 = .ok p := by
  simp only [populate_ok_iff_blocks]
  constructor
  · intro all k n hn
    obtain ⟨v, moved, found⟩ := (blocksMoved.get?_iff k n).mp hn
    obtain ⟨s, hs, lies⟩ := lie v n found
    exact (populateBlock_in_step laidOut hs lies moved instructionsMoved).1.mp (all v n found)
  · intro all v n found
    obtain ⟨s, hs, lies⟩ := lie v n found
    obtain ⟨k, moved, hn⟩ := blocksMoved.exists_moved laidOut found
    exact (populateBlock_in_step laidOut hs lies moved instructionsMoved).1.mpr (all k n hn)

theorem populated_relocates {p p' : Table Block} (hp : (populate blocks t).2 = .ok p)
    (hp' : (populate blocks' u).2 = .ok p') :
    p.Relocates h.fileOffset? (Block.Relocates h.fileOffset?) p' := by
  refine Table.relocates_of_get?
    (fun a b k => Header.fileOffset?_injective laidOut.offsetsApart) ?_ ?_
  · intro v b hb
    obtain ⟨n, found, populated⟩ := (get?_of_populate hp v b).mp hb
    obtain ⟨s, hs, lies⟩ := lie v n found
    obtain ⟨k, moved, hn⟩ := blocksMoved.exists_moved laidOut found
    obtain ⟨b', hb', populated'⟩ := exists_populated hp' hn
    have related := (populateBlock_in_step laidOut hs lies moved instructionsMoved).2
    exact ⟨k, b', moved, hb', related b b' populated populated'⟩
  · intro k b' hb'
    obtain ⟨n, hn, _⟩ := (get?_of_populate hp' k b').mp hb'
    obtain ⟨v, moved, found⟩ := (blocksMoved.get?_iff k n).mp hn
    obtain ⟨b, hb, _⟩ := exists_populated hp found
    exact ⟨v, b, moved, hb⟩

theorem listing_relocates {p p' : Table Block} (hp : (populate blocks t).2 = .ok p)
    (hp' : (populate blocks' u).2 = .ok p') (scope : Scope) :
    (listing scope p t).Relocates h.fileOffset? (· = ·) (listing scope p' u) := by
  have blocksRelocate := populated_relocates laidOut instructionsMoved blocksMoved lie hp hp'
  refine Table.relocates_of_get?
    (fun a b k => Header.fileOffset?_injective laidOut.offsetsApart) ?_ ?_
  · intro a text ha
    cases scope with
    | cfg =>
      obtain ⟨v, b, hb, hm⟩ := (get?_listing_cfg (fromTable_of_populate hp) a text).mp ha
      obtain ⟨k, b', _, hb', related⟩ := blocksRelocate.forth hb
      obtain ⟨⟨a', text'⟩, hm', moved, rfl⟩ := exists_right_of_forall₂ related.members hm
      exact ⟨a', text', moved,
        (get?_listing_cfg (fromTable_of_populate hp') a' text').mpr ⟨k, b', hb', hm'⟩, rfl⟩
    | exhaustive =>
      obtain ⟨i, found, rfl⟩ := (get?_listing_exhaustive p t a text).mp ha
      obtain ⟨k, moved, found'⟩ := instructionsMoved.exists_moved laidOut found
      exact ⟨k, i.text, moved, (get?_listing_exhaustive p' u k i.text).mpr ⟨i, found', rfl⟩, rfl⟩
  · intro k text hk
    cases scope with
    | cfg =>
      obtain ⟨v, b', hb', hm'⟩ := (get?_listing_cfg (fromTable_of_populate hp') k text).mp hk
      obtain ⟨v, b, _, hb, related⟩ := blocksRelocate.back hb'
      obtain ⟨⟨a, text'⟩, hm, moved, rfl⟩ := exists_left_of_forall₂ related.members hm'
      exact ⟨a, text, moved,
        (get?_listing_cfg (fromTable_of_populate hp) a text).mpr ⟨v, b, hb, hm⟩⟩
    | exhaustive =>
      obtain ⟨i, found', rfl⟩ := (get?_listing_exhaustive p' u k text).mp hk
      obtain ⟨a, moved, found⟩ := (instructionsMoved.get?_iff k i).mp found'
      exact ⟨a, i.text, moved, (get?_listing_exhaustive p t a i.text).mpr ⟨i, found, rfl⟩⟩

end

end Population

/-- The usable rows of both files lie in sections, and every block within its section. -/
structure Header.HoldsRows (h : Header) (instructionBytes blockBytes : Bytes) : Prop where
  instructions : ∀ row ∈ rows instructionBytes, ∀ a i,
    Yields instructionColumns .identity row a i → h.Places a
  blocks : ∀ row ∈ rows blockBytes, ∀ v n,
    Yields blockColumns .identity row v n → ∃ s ∈ h.sections, LiesIn s v n

theorem AddressSpace.ofHeader_of_fixed {h : Header} (elf : h.format = .elf)
    (fixed : h.kind ≠ .sharedObject) : AddressSpace.ofHeader h = .offsetTranslated h := by
  rw [ofHeader, elf]
  cases kind : h.kind with
  | sharedObject => exact absurd kind fixed
  | executable | relocatable | core | unknown => rfl

/-- Reconciling at file offsets is reconciling at addresses and moving the result. -/
theorem reconcile_commutes_with_translation {h : Header} (elf : h.format = .elf)
    (fixed : h.kind ≠ .sharedObject) (laidOut : h.IsLaidOut) {instructionBytes blockBytes : Bytes}
    (instructionsRead : ∃ t, (readInstructions .identity instructionBytes).result = .ok t)
    (blocksRead : ∃ t, (readBlocks .identity blockBytes).result = .ok t)
    (held : h.HoldsRows instructionBytes blockBytes) (instructionPath blockPath : String)
    (scope : Scope) :
    let result space := (reconcile ⟨instructionPath, some instructionBytes⟩
      ⟨blockPath, some blockBytes⟩ space scope).result
    ((∃ r', result (.ofHeader h) = .ok r') ↔ ∃ r, result .identity = .ok r) ∧
    (∀ failure, result .identity = .error failure ∨ result (.ofHeader h) = .error failure →
      ∃ block address, failure = ⟨.blocksParsed, .gap block address⟩) ∧
    (∀ r r', result .identity = .ok r → result (.ofHeader h) = .ok r' →
      r.Relocates h.fileOffset? r') := by
  obtain ⟨t, ht⟩ := instructionsRead
  obtain ⟨blocks, hb⟩ := blocksRead
  obtain ⟨u, hu, instructionsMoved⟩ := exists_instructions_translated laidOut held.instructions ht
  have placed : ∀ row ∈ rows blockBytes, ∀ v n, Yields blockColumns .identity row v n →
      h.Places v := by
    intro row hrow v n yields
    obtain ⟨s, hs, lies⟩ := held.blocks row hrow v n yields
    exact ⟨s, hs, lies.start⟩
  obtain ⟨blocks', hb', blocksMoved⟩ := exists_blocks_translated laidOut placed hb
  have lie : ∀ v n, blocks.get? v = some n → ∃ s ∈ h.sections, LiesIn s v n := by
    intro v n hn
    obtain ⟨before, row, after, heq, yields, _⟩ :=
      ((reads_blocks .identity blockBytes).get?_iff blocks hb v n).mp hn
    exact held.blocks row (by simp [heq]) v n yields
  have space := AddressSpace.ofHeader_of_fixed elf fixed
  intro result
  have source : ∀ {r}, result .identity = .ok r ↔ _ := reconcile_ok_iff_of_read ht hb
  have target : ∀ {r}, result (.ofHeader h) = .ok r ↔ _ := space ▸ reconcile_ok_iff_of_read hu hb'
  have same := populate_ok_iff_moved laidOut instructionsMoved blocksMoved lie
  refine ⟨⟨?_, ?_⟩, ?_, ?_⟩
  · rintro ⟨r', hr'⟩
    obtain ⟨p, hp⟩ := same.mpr ⟨r'.blocks, (target.mp hr').1⟩
    exact ⟨⟨listing scope p t, p⟩, source.mpr ⟨hp, rfl⟩⟩
  · rintro ⟨r, hr⟩
    obtain ⟨p', hp'⟩ := same.mp ⟨r.blocks, (source.mp hr).1⟩
    exact ⟨⟨listing scope p' u, p'⟩, target.mpr ⟨hp', rfl⟩⟩
  · intro failure failed
    rcases failed with failed | failed
    · exact gap_of_reconcile_error ht hb failed
    · exact gap_of_reconcile_error hu hb' (space ▸ failed)
  · intro r r' hr hr'
    obtain ⟨hp, listed⟩ := source.mp hr
    obtain ⟨hp', listed'⟩ := target.mp hr'
    refine ⟨?_, populated_relocates laidOut instructionsMoved blocksMoved lie hp hp'⟩
    rw [listed, listed']
    exact listing_relocates laidOut instructionsMoved blocksMoved lie hp hp' scope

/-- Two sections that lie side by side in the file and apart in memory. -/
theorem reconcile_commutes_for_adjacent_offsets :
    let h : Header :=
      ⟨.elf, .executable, true, none, [⟨".text", 16, 5, 100⟩, ⟨".fini", 64, 8, 105⟩]⟩
    let instructionFile : FactFile :=
      ⟨"instructions.tsv", some (Utf8.encode "16\t4\tnop\n20\t1\tret\n64\t1\tret\n")⟩
    let blockFile : FactFile := ⟨"blocks.tsv", some (Utf8.encode "64\t1\tb\n16\t5\ta\n")⟩
    ∃ r r', (reconcile instructionFile blockFile .identity .cfg).result = .ok r ∧
      (reconcile instructionFile blockFile (.ofHeader h) .cfg).result = .ok r' ∧
      r.Relocates h.fileOffset? r' := by
  intro h instructionFile blockFile
  let instructionBytes := Utf8.encode "16\t4\tnop\n20\t1\tret\n64\t1\tret\n"
  let blockBytes := Utf8.encode "64\t1\tb\n16\t5\ta\n"
  let instructions : List (Word × Instruction) :=
    [(16, ⟨"nop", 4⟩), (20, ⟨"ret", 1⟩), (64, ⟨"ret", 1⟩)]
  let blocks : List (Word × Word) := [(64, 1), (16, 5)]
  have laidOut : h.IsLaidOut := by
    refine ⟨?_, ?_, by decide⟩
    · simp [h, Section.addresses]
    · simp [h, Section.offsets]
  have placed : ∀ e ∈ instructions, h.Places e.1 := by
    simp [instructions, h, Header.Places, Section.addresses]
  have lie : ∀ e ∈ blocks, ∃ s ∈ h.sections, LiesIn s e.1 e.2 := by
    simp [blocks, h, liesIn_iff, Section.addresses]
  have instructionsSaid : (readRecords instructionColumns.reader .identity
      (records instructionBytes)).result = .ok instructions := by
    decide +kernel
  have blocksSaid : (readRecords blockColumns.reader .identity (records blockBytes)).result =
      .ok blocks := by
    decide +kernel
  have held : h.HoldsRows instructionBytes blockBytes := by
    refine ⟨?_, ?_⟩
    · intro row hrow a i yields
      exact placed (a, i) ((mem_entries_iff_yields instructionsSaid a i).mpr ⟨row, hrow, yields⟩)
    · intro row hrow v n yields
      exact lie (v, n) ((mem_entries_iff_yields blocksSaid v n).mpr ⟨row, hrow, yields⟩)
  have source : (reconcile instructionFile blockFile .identity .cfg).result =
      .ok ⟨Table.ofList [(16, "nop"), (20, "ret"), (64, "ret")],
        Table.ofList [(16, ⟨16, [⟨16, "nop"⟩, ⟨20, "ret"⟩]⟩), (64, ⟨64, [⟨64, "ret"⟩]⟩)]⟩ := by
    decide +kernel
  obtain ⟨same, _, relocates⟩ := reconcile_commutes_with_translation rfl (by decide) laidOut
    ⟨Table.ofList instructions, by decide +kernel⟩ ⟨Table.ofList blocks, by decide +kernel⟩ held
    instructionFile.path blockFile.path .cfg
  obtain ⟨r', target⟩ := same.mpr ⟨_, source⟩
  exact ⟨_, r', source, target, relocates _ r' source target⟩

end BasicBlocks
