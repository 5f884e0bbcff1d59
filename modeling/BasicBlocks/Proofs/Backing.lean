import BasicBlocks.Image.Recognition
import BasicBlocks.Proofs.Records
import BasicBlocks.Proofs.Sections

/-!
# Bytes behind addresses

A translated address is as far into the bytes of a section of the image as it is into the section's
memory. Whether there are bytes that far is another question: a section has as many bytes on disk
as its own table entry says.
-/

namespace BasicBlocks.Image

open Utf8 (Bytes)

/-- A section as the table of its image has it: where it is in memory, and its bytes on disk. -/
structure Extent where
  address : Nat
  size : Nat
  offset : Nat
  fileSize : Nat
  deriving DecidableEq

namespace Extent

def memory (e : Extent) : Set Nat := Set.Ico e.address (e.address + e.size)

def disk (e : Extent) : Set Nat := Set.Ico e.offset (e.offset + e.fileSize)

/-- The section of a header that stems from the table entry. -/
structure Gives (e : Extent) (s : Section) : Prop where
  address : s.address.toNat = e.address
  size : s.size.toNat = e.size
  offset : s.offset.toNat = e.offset

end Extent

theorem forall_of_readMany {α : Type} {reader : Bytes → Option (α × Bytes)} {P : α → Prop}
    (each : ∀ bytes a rest, reader bytes = some (a, rest) → P a) {n : Nat} {bytes rest : Bytes}
    {as : List α} (read : readMany reader n bytes = some (as, rest)) : ∀ a ∈ as, P a := by
  induction n generalizing bytes as rest with
  | zero =>
    obtain ⟨rfl, _⟩ := Prod.mk.inj (Option.some.inj read)
    simp
  | succ n ih =>
    simp only [readMany, Option.bind_eq_bind, Option.bind_eq_some_iff] at read
    obtain ⟨⟨first, middle⟩, one, ⟨later, last⟩, others, both⟩ := read
    obtain ⟨rfl, _⟩ := Prod.mk.inj (Option.some.inj both)
    exact List.forall_mem_cons.mpr ⟨each _ _ _ one, ih others⟩

theorem exists_of_mem_mapM {α β : Type} {f : α → Option β} {as : List α} {bs : List β}
    (mapped : as.mapM f = some bs) {b : β} (hb : b ∈ bs) : ∃ a ∈ as, f a = some b := by
  induction as generalizing bs with
  | nil =>
    obtain rfl := Option.some.inj mapped
    cases hb
  | cons a as ih =>
    simp only [List.mapM_cons, Option.bind_eq_bind, Option.bind_eq_some_iff] at mapped
    obtain ⟨first, ha, others, later, result⟩ := mapped
    obtain rfl := Option.some.inj result
    rcases List.mem_cons.mp hb with rfl | hb
    · exact ⟨a, List.mem_cons_self, ha⟩
    · obtain ⟨c, hc, found⟩ := ih later hb
      exact ⟨c, List.mem_cons_of_mem a hc, found⟩

/-! ## ELF -/

namespace Elf

def table? (image : Bytes) : Option (List SectionHeader) := do
  let c ← (image[4]?).bind Class.ofByte?
  let o ← (image[5]?).bind byteOrderOf?
  let h ← readFileHeader c o (image.drop 16)
  readSectionHeaders c o h image

/-- A section without type for bytes has none. -/
def SectionHeader.extent (s : SectionHeader) : Extent :=
  ⟨s.address, s.size, s.offset, if s.type = noBits then 0 else s.size⟩

structure SectionHeader.IsSized (s : SectionHeader) : Prop where
  address : s.address < Word.bound
  size : s.size < Word.bound
  offset : s.offset < Word.bound

theorem isSized_of_readSectionHeader {c : Class} {o : ByteOrder} {bytes rest : Bytes}
    {s : SectionHeader} (read : readSectionHeader c o bytes = some (s, rest)) : s.IsSized := by
  have bound : Word.bound = 256 ^ 8 := rfl
  rw [readSectionHeader] at read
  split at read
  next numbers =>
    have fit := fit_of_readNumbers numbers
    obtain ⟨rfl, _⟩ := Prod.mk.inj (Option.some.inj read)
    have wide : 256 ^ c.wordWidth ≤ 256 ^ 8 := by cases c <;> decide
    simp only [Class.sectionHeaderWidths, Fit, List.forall₂_cons] at fit
    obtain ⟨_, _, _, address, offset, size, _⟩ := fit
    rw [← bound] at wide
    exact ⟨address.trans_le wide, size.trans_le wide, offset.trans_le wide⟩
  next => cases read

theorem isSized_of_readSectionHeaders {c : Class} {o : ByteOrder} {h : FileHeader} {image : Bytes}
    {t : List SectionHeader} (read : readSectionHeaders c o h image = some t) :
    ∀ s ∈ t, s.IsSized := by
  rw [readSectionHeaders] at read
  split at read
  next =>
    obtain rfl := Option.some.inj read
    simp
  next =>
    simp only [Option.bind_eq_bind, Option.bind_eq_some_iff, Option.ite_none_left_eq_some] at read
    obtain ⟨⟨first, rest⟩, one, _, ⟨later, last⟩, others, result⟩ := read
    obtain rfl := Option.some.inj result
    exact List.forall_mem_cons.mpr ⟨isSized_of_readSectionHeader one,
      forall_of_readMany (fun _ _ _ => isSized_of_readSectionHeader) others⟩

/-- Sections without bytes in the file are not taken over. -/
theorem exists_extent {image : Bytes} {h : Header} (known : recognise image = some h) :
    h.format = .elf ∧ ∀ s ∈ h.sections, ∃ t, table? image = some t ∧
      ∃ r ∈ t, r.extent.Gives s ∧ r.extent.fileSize = r.extent.size := by
  simp only [recognise, Option.bind_eq_bind, Option.bind_eq_some_iff,
    Option.ite_none_left_eq_some] at known
  obtain ⟨c, hc, o, ho, f, hf, _, t, ht, names, _, result⟩ := known
  obtain rfl := Option.some.inj result
  refine ⟨rfl, fun s hs => ?_⟩
  obtain ⟨r, kept, rfl⟩ := List.mem_map.mp hs
  obtain ⟨hr, mapped⟩ := List.mem_filter.mp kept
  have sized := isSized_of_readSectionHeaders ht r hr
  have table : table? image = some t := by
    simp only [table?, Option.bind_eq_bind, Option.bind_eq_some_iff]
    exact ⟨c, hc, o, ho, f, hf, ht⟩
  refine ⟨t, table, r, hr, ⟨?_, ?_, ?_⟩, ?_⟩
  · exact Word.toNat_ofNat_of_lt sized.address
  · exact Word.toNat_ofNat_of_lt sized.size
  · exact Word.toNat_ofNat_of_lt sized.offset
  · have held : r.type ≠ noBits := by
      simp only [SectionHeader.isMapped, Bool.and_eq_true, decide_eq_true_eq] at mapped
      exact mapped.1.2
    exact if_neg held

end Elf

/-! ## PE -/

namespace Pe

/-- The optional header, or what stands for it where there is none. -/
def optionalHeader? (h : FileHeader) (rest : Bytes) : Option OptionalHeader :=
  if h.optionalSize = 0 then some ⟨false, 0, 0⟩ else readOptionalHeader rest

/-- The base of an image with its section table. -/
def table? (image : Bytes) : Option (Nat × List SectionHeader) := do
  let pointer ← readNumberAt .little pointerOffset 4 image
  let (_, rest) ← takeBytes 4 (image.drop pointer)
  let (h, rest) ← readFileHeader rest
  let optional ← optionalHeader? h rest
  let (headers, _) ← readMany readSectionHeader h.sectionCount (rest.drop h.optionalSize)
  return (optional.base, headers)

/-- The size in memory and the size of the bytes on disk are given apart. -/
def SectionHeader.extent (base : Nat) (s : SectionHeader) : Extent :=
  ⟨base + s.virtualAddress, s.virtualSize, s.rawOffset, s.rawSize⟩

structure SectionHeader.IsSized (s : SectionHeader) : Prop where
  size : s.virtualSize < Word.bound
  offset : s.rawOffset < Word.bound

theorem isSized_of_readSectionHeader {bytes rest : Bytes} {s : SectionHeader}
    (read : readSectionHeader bytes = some (s, rest)) : s.IsSized := by
  have bound : 256 ^ 4 ≤ Word.bound := by decide
  simp only [readSectionHeader, Option.bind_eq_bind, Option.bind_eq_some_iff] at read
  obtain ⟨_, _, read⟩ := read
  split at read
  next numbers =>
    have fit := fit_of_readNumbers numbers
    obtain ⟨rfl, _⟩ := Prod.mk.inj (Option.some.inj read)
    simp only [Fit, List.forall₂_cons] at fit
    obtain ⟨size, _, _, offset, _⟩ := fit
    exact ⟨size.trans_le bound, offset.trans_le bound⟩
  next => cases read

theorem gives_of_mapping? {base : Nat} {name : String} {r : SectionHeader} {s : Section}
    (sized : r.IsSized) (mapped : r.mapping? base name = some s) : (r.extent base).Gives s := by
  simp only [SectionHeader.mapping?, Option.bind_eq_bind, Option.bind_eq_some_iff] at mapped
  obtain ⟨address, placed, result⟩ := mapped
  obtain rfl := Option.some.inj result
  exact ⟨Word.toNat_of_ofNat? placed, Word.toNat_ofNat_of_lt sized.size,
    Word.toNat_ofNat_of_lt sized.offset⟩

theorem exists_of_mem_readSections {h : FileHeader} {base : Nat} {table image : Bytes}
    {sections : List Section} (read : readSections h base table image = some sections)
    {s : Section} (hs : s ∈ sections) :
    ∃ t last, readMany readSectionHeader h.sectionCount table = some (t, last) ∧
      ∃ r ∈ t, (r.extent base).Gives s := by
  simp only [readSections, Option.bind_eq_bind, Option.bind_eq_some_iff,
    Option.ite_none_left_eq_some] at read
  obtain ⟨_, ⟨t, last⟩, headers, named, names, result⟩ := read
  obtain rfl := Option.some.inj result
  obtain ⟨⟨r, name⟩, hr, mapped⟩ := List.mem_filterMap.mp hs
  have given : r ∈ t := by
    obtain ⟨r', hr', pair⟩ := exists_of_mem_mapM names hr
    obtain ⟨_, _, same⟩ := Option.map_eq_some_iff.mp pair
    rwa [← (Prod.mk.inj same).1]
  have sized := forall_of_readMany (fun _ _ _ => isSized_of_readSectionHeader) headers r given
  exact ⟨t, last, headers, r, given, gives_of_mapping? sized mapped⟩

theorem exists_extent {image : Bytes} {h : Header} (known : recognise image = some h) :
    h.format = .pe ∧ ∀ s ∈ h.sections,
      ∃ base t, table? image = some (base, t) ∧ ∃ r ∈ t, (r.extent base).Gives s := by
  simp only [recognise, Option.bind_eq_bind, Option.bind_eq_some_iff,
    Option.ite_none_left_eq_some] at known
  obtain ⟨pointer, hpointer, front, hfront, _, fields, hfields, known⟩ := known
  have peeled : ∃ optional, optionalHeader? fields.1 fields.2 = some optional ∧
      ∃ sections, readSections fields.1 optional.base (fields.2.drop fields.1.optionalSize) image =
        some sections ∧ h.format = .pe ∧ h.sections = sections := by
    unfold optionalHeader?
    split at known
    next none =>
      simp only [Option.bind_some, Option.bind_eq_some_iff] at known
      obtain ⟨sections, read, result⟩ := known
      obtain rfl := Option.some.inj result
      exact ⟨_, if_pos none, sections, read, rfl, rfl⟩
    next given =>
      simp only [Option.bind_eq_some_iff] at known
      obtain ⟨optional, hoptional, sections, read, result⟩ := known
      obtain rfl := Option.some.inj result
      exact ⟨optional, (if_neg given).trans hoptional, sections, read, rfl, rfl⟩
  obtain ⟨optional, hoptional, sections, read, format, rfl⟩ := peeled
  refine ⟨format, fun s hs => ?_⟩
  obtain ⟨t, last, headers, r, hr, gives⟩ := exists_of_mem_readSections read hs
  have table : table? image = some (optional.base, t) := by
    simp only [table?, Option.bind_eq_bind, Option.bind_eq_some_iff]
    exact ⟨pointer, hpointer, front, hfront, fields, hfields, optional, hoptional, _, headers, rfl⟩
  exact ⟨optional.base, t, table, r, hr, gives⟩

end Pe

/-! ## Mach-O -/

namespace MachO

/-- Where a section's flags are, from its start. -/
def flagsOffset (l : Layout) : Nat := 32 + 2 * l.wordWidth + 16

/-- The types of sections that are zeros in memory, and nothing on disk. -/
def zeroFillTypes : List Nat := [0x1, 0xc, 0x12]

def isZeroFill (l : Layout) (bytes : Bytes) : Bool :=
  match readNumberAt l.order (flagsOffset l) 4 bytes with
  | some flags => zeroFillTypes.contains (flags % 0x100)
  | none => false

/-- Sections as they are read, each with whether it is filled with zeros. -/
def sectionsWithFill (l : Layout) : Nat → Bytes → List (Section × Bool)
  | 0, _ => []
  | n + 1, bytes =>
    match readSection l bytes with
    | none => []
    | some (s, rest) => (s, isZeroFill l bytes) :: sectionsWithFill l n rest

theorem map_fst_sectionsWithFill (l : Layout) (n : Nat) (bytes : Bytes) :
    (sectionsWithFill l n bytes).map (·.1) = readSections l n bytes := by
  induction n generalizing bytes with
  | zero => rfl
  | succ n ih =>
    rw [sectionsWithFill, readSections]
    cases readSection l bytes with
    | none => rfl
    | some read => simp [ih]

/-- All sections of the segments of an image. -/
def table? (l : Layout) (image : Bytes) : Option (List (Section × Bool)) := do
  let h ← readFileHeader l image
  let loaded ← readCommands l h.cpu image h.commandCount (image.drop l.fileHeaderSize) Loaded.none
  return loaded.segments.flatMap fun s => sectionsWithFill l s.sectionCount s.tail

def extent (s : Section × Bool) : Extent :=
  ⟨s.1.address.toNat, s.1.size.toNat, s.1.offset.toNat, if s.2 then 0 else s.1.size.toNat⟩

theorem exists_extent {l : Layout} {image : Bytes} {h : Header}
    (known : recognise l image = some h) :
    h.format = .machO ∧ ∀ s ∈ h.sections,
      ∃ t, table? l image = some t ∧ ∃ r ∈ t, (extent r).Gives s := by
  simp only [recognise, Option.bind_eq_bind, Option.bind_eq_some_iff,
    Option.ite_none_left_eq_some] at known
  obtain ⟨_, f, hf, _, loaded, hloaded, entry, _, result⟩ := known
  obtain rfl := Option.some.inj result
  refine ⟨rfl, fun s hs => ?_⟩
  obtain ⟨segment, hsegment, within⟩ := List.mem_flatMap.mp (List.mem_of_mem_filter hs)
  rw [← map_fst_sectionsWithFill] at within
  obtain ⟨r, hr, rfl⟩ := List.mem_map.mp within
  have table : table? l image = some
      (loaded.segments.flatMap fun s => sectionsWithFill l s.sectionCount s.tail) := by
    simp only [table?, Option.bind_eq_bind, Option.bind_eq_some_iff]
    exact ⟨f, hf, loaded, hloaded, rfl⟩
  exact ⟨_, table, r, List.mem_flatMap.mpr ⟨segment, hsegment, hr⟩, rfl, rfl, rfl⟩

end MachO

/-! ## All formats -/

/-- The sections of an image, as its own tables have them. -/
def extents (image : Bytes) : List Extent :=
  match image with
  | 0x7f :: 0x45 :: 0x4c :: 0x46 :: _ => ((Elf.table? image).getD []).map (·.extent)
  | 0x4d :: 0x5a :: _ => (Pe.table? image).elim [] fun t => t.2.map (·.extent t.1)
  | _ =>
    (MachO.layout? image).elim [] fun l => ((MachO.table? l image).getD []).map MachO.extent

/-- Whether the format tells which sections have bytes on disk. Only sections with bytes are taken
over from an ELF image, and from a Mach-O image they are taken over in full or filled with zeros. -/
def Extent.IsBacked (e : Extent) : Format → Prop
  | .elf => e.fileSize = e.size
  | .machO => e.fileSize = e.size ∨ e.fileSize = 0
  | _ => True

theorem MachO.isBacked_extent (r : Section × Bool) : (extent r).IsBacked .machO := by
  obtain ⟨s, _ | _⟩ := r
  · exact Or.inl rfl
  · exact Or.inr rfl

theorem exists_extent {image : Bytes} {h : Header} (known : recognise? image = some h)
    {s : Section} (hs : s ∈ h.sections) : ∃ e ∈ extents image, e.Gives s ∧ e.IsBacked h.format := by
  unfold recognise? at known
  unfold extents
  split at known
  next => cases known
  next =>
    split at known
    next =>
      obtain ⟨format, sections⟩ := Elf.exists_extent known
      obtain ⟨t, table, r, hr, gives, backed⟩ := sections s hs
      rw [format, table]
      exact ⟨r.extent, List.mem_map_of_mem hr, gives, backed⟩
    next =>
      obtain ⟨format, sections⟩ := Pe.exists_extent known
      obtain ⟨base, t, table, r, hr, gives⟩ := sections s hs
      rw [format, table]
      exact ⟨r.extent base, List.mem_map_of_mem hr, gives, trivial⟩
    next =>
      obtain rfl := Option.some.inj known
      cases hs
    next notElf notPe _ =>
      obtain ⟨l, layout, known⟩ := Option.bind_eq_some_iff.mp known
      obtain ⟨format, sections⟩ := MachO.exists_extent known
      obtain ⟨t, table, r, hr, gives⟩ := sections s hs
      rw [format]
      split
      next => exact absurd rfl (notElf _)
      next => exact absurd rfl (notPe _)
      next =>
        rw [layout, Option.elim_some, table]
        exact ⟨MachO.extent r, List.mem_map_of_mem hr, gives, MachO.isBacked_extent r⟩

theorem Extent.mem_disk_iff {e : Extent} {v o : Nat} (into : o = e.offset + (v - e.address)) :
    o ∈ e.disk ↔ v - e.address < e.fileSize := by
  rw [disk, Set.mem_Ico, into]
  omega

/-- A translated address is as far into a section's bytes as into its memory. There is a byte on
disk that far in every ELF image, in a Mach-O image unless the section is filled with zeros, and
else if the section has as many bytes on disk. -/
theorem translated_address_is_into_section (image : Bytes) {v o : Word}
    (translated : (Header.ofImage image).fileOffset? v = some o) :
    ∃ e ∈ extents image, v.toNat ∈ e.memory ∧ o.toNat = e.offset + (v.toNat - e.address) ∧
      (o.toNat ∈ e.disk ↔ v.toNat - e.address < e.fileSize) ∧
      ((Header.ofImage image).format = .elf → o.toNat ∈ e.disk) ∧
      ((Header.ofImage image).format = .machO → o.toNat ∈ e.disk ∨ e.fileSize = 0) := by
  obtain ⟨s, hs, within, sum⟩ := Header.exists_section_of_fileOffset? translated
  have known : ∃ h, recognise? image = some h ∧ Header.ofImage image = h := by
    cases found : recognise? image with
    | none =>
      rw [Header.ofImage, found] at hs
      cases hs
    | some h => exact ⟨h, rfl, by rw [Header.ofImage, found, Option.getD_some]⟩
  obtain ⟨h, known, same⟩ := known
  rw [same] at hs ⊢
  obtain ⟨e, he, gives, backed⟩ := exists_extent known hs
  have range := Set.mem_Ico.mp within
  rw [gives.address, gives.size] at range
  rw [gives.address, gives.offset] at sum
  have into : o.toNat = e.offset + (v.toNat - e.address) := by omega
  have onDisk := Extent.mem_disk_iff into
  refine ⟨e, he, Set.mem_Ico.mpr range, into, onDisk, fun elf => ?_, fun machO => ?_⟩
  · have full : e.fileSize = e.size := by rwa [elf] at backed
    exact onDisk.mpr (by omega)
  · have full : e.fileSize = e.size ∨ e.fileSize = 0 := by rwa [machO] at backed
    rcases full with full | empty
    · exact Or.inl (onDisk.mpr (by omega))
    · exact Or.inr empty

/-- A PE image with one section: sixteen bytes on disk for a page of memory. -/
def pageImage : Bytes :=
  [0x4d, 0x5a] ++ List.replicate 0x3a 0 ++ toLittle 4 0x80 ++ List.replicate 0x40 0 ++
    Pe.signature ++
    writeRecord .little [2, 2, 4, 4, 4, 2, 2] [0x8664, 1, 0, 0, 0, 112, 0x22] ++
    writeRecord .little Pe.standardWidths [0x20b, 0, 0, 0x10, 0, 0, 0x1000, 0x1000] ++
    toLittle 8 0x140000000 ++
    writeRecord .little (Pe.trailingWidths 8)
      [0x1000, 0x200, 0, 0, 0, 0, 0, 0, 0, 0x2000, 0x200, 0, 3, 0, 0, 0, 0, 0, 0, 0] ++
    [0x2e, 0x74, 0x65, 0x78, 0x74, 0, 0, 0] ++
    writeRecord .little [4, 4, 4, 4, 4, 4, 2, 2, 4]
      [0x1000, 0x1000, 0x10, 0x200, 0, 0, 0, 0, 0x60000020] ++
    List.replicate 0xd0 0 ++ List.replicate 0x10 0xc3

/-- An address behind the last byte of a section is translated all the same. -/
theorem translation_outruns_bytes :
    ¬ ∀ (image : Bytes) (v o : Word), (Header.ofImage image).fileOffset? v = some o →
      ∃ e ∈ extents image, v.toNat ∈ e.memory ∧ o.toNat ∈ e.disk := by
  intro backed
  obtain ⟨e, he, _, onDisk⟩ := backed pageImage 0x140001010 0x210 (by decide +kernel)
  have only : extents pageImage = [⟨0x140001000, 0x1000, 0x200, 0x10⟩] := by decide +kernel
  obtain rfl := List.mem_singleton.mp (only ▸ he)
  exact absurd onDisk.2 (by decide)

theorem page_tail_is_into_section :
    (Header.ofImage pageImage).fileOffset? 0x140001010 = some 0x210 ∧
      ∃ e ∈ extents pageImage,
        0x140001010 ∈ e.memory ∧ 0x210 = e.offset + (0x140001010 - e.address) ∧
          ¬ 0x140001010 - e.address < e.fileSize := by
  have translated : (Header.ofImage pageImage).fileOffset? 0x140001010 = some 0x210 := by
    decide +kernel
  obtain ⟨e, he, covered, into, _⟩ := translated_address_is_into_section pageImage translated
  have only : extents pageImage = [⟨0x140001000, 0x1000, 0x200, 0x10⟩] := by decide +kernel
  refine ⟨translated, e, he, covered, into, ?_⟩
  obtain rfl := List.mem_singleton.mp (only ▸ he)
  decide

end BasicBlocks.Image
