import Mathlib.Data.Nat.Bitwise
import BasicBlocks.Image.Recognition
import BasicBlocks.Proofs.NameFields
import BasicBlocks.Proofs.Tables

/-!
# PE images of described files

A file is described by its numbers and its sections. Every image of a described file is read as the
description says: a section, or the entry point, is where its sum with the image base is, and is
left out if that is no word. A section that is left out takes no other with it.
-/

namespace BasicBlocks.Image.Pe

open Utf8 (Bytes)

/-! ## Descriptions -/

/-- A name that a section header holds itself, and not a reference to one kept elsewhere. -/
structure IsPlain (name : String) : Prop extends FitsField 8 name where
  noSlash : name.toList.head? ≠ some '/'

/-- A section with everything that its header says. -/
structure Part where
  name : String
  virtualSize : Nat
  virtualAddress : Nat
  rawSize : Nat
  rawOffset : Nat
  relocationOffset : Nat
  lineOffset : Nat
  relocationCount : Nat
  lineCount : Nat
  characteristics : Nat

namespace Part

def widths : List Nat := [4, 4, 4, 4, 4, 4, 2, 2, 4]

def numbers (p : Part) : List Nat :=
  [p.virtualSize, p.virtualAddress, p.rawSize, p.rawOffset, p.relocationOffset, p.lineOffset,
    p.relocationCount, p.lineCount, p.characteristics]

/-- The section header. -/
def bytes (p : Part) : Bytes := padded 8 p.name ++ writeRecord .little widths p.numbers

structure Fits (p : Part) : Prop where
  plain : IsPlain p.name
  numbers : Fit widths p.numbers

/-- Whether the section's address, counted from the base, is a word. -/
def isPlaced (base : Nat) (p : Part) : Bool := base + p.virtualAddress < Word.bound

/-- The section as it is taken over into a header: nothing of it changes but that its address counts
from zero. -/
structure Gives (base : Nat) (p : Part) (s : Section) : Prop where
  name : s.name = p.name
  address : s.address.toNat = base + p.virtualAddress
  size : s.size.toNat = p.virtualSize
  offset : s.offset.toNat = p.rawOffset

end Part

/-- A file with an optional header, which has no data directories. -/
structure Blueprint where
  /-- Where the signature is. -/
  pointer : Nat
  machine : Nat
  timestamp : Nat
  symbolOffset : Nat
  symbolCount : Nat
  /-- How far the section table is behind the start of the optional header. -/
  optionalSize : Nat
  characteristics : Nat
  is64 : Bool
  linkerMajor : Nat
  linkerMinor : Nat
  codeSize : Nat
  dataSize : Nat
  zeroedSize : Nat
  entry : Nat
  codeBase : Nat
  /-- Only in 32-bit files. -/
  dataBase : Nat
  base : Nat
  /-- What stands between the base and the number of data directories. -/
  settings : List Nat
  parts : List Part

namespace Blueprint

def fileHeaderWidths : List Nat := [2, 2, 4, 4, 4, 2, 2]

def fileHeader (b : Blueprint) : List Nat :=
  [b.machine, b.parts.length, b.timestamp, b.symbolOffset, b.symbolCount, b.optionalSize,
    b.characteristics]

def magic (b : Blueprint) : Nat := if b.is64 then 0x20b else 0x10b

def wordWidth (b : Blueprint) : Nat := if b.is64 then 8 else 4

def standard (b : Blueprint) : List Nat :=
  [b.magic, b.linkerMajor, b.linkerMinor, b.codeSize, b.dataSize, b.zeroedSize, b.entry, b.codeBase]

def baseWidths (b : Blueprint) : List Nat := if b.is64 then [8] else [4, 4]

def bases (b : Blueprint) : List Nat := if b.is64 then [b.base] else [b.dataBase, b.base]

/-- The settings, and that there are no data directories. -/
def trailing (b : Blueprint) : List Nat := b.settings ++ [0]

def optionalHeader (b : Blueprint) : Bytes :=
  writeRecord .little standardWidths b.standard ++
    (writeRecord .little b.baseWidths b.bases ++
      writeRecord .little (trailingWidths b.wordWidth) b.trailing)

def headers (b : Blueprint) : Bytes :=
  signature ++ (writeRecord .little fileHeaderWidths b.fileHeader ++ b.optionalHeader)

/-- How far the optional header is behind the signature's start. -/
def optionalOffset : Nat := 24

def sectionTable (b : Blueprint) : Bytes := b.parts.flatMap (·.bytes)

/-- Bit 13 of the characteristics is for dynamic libraries. -/
def isLibrary (b : Blueprint) : Bool := b.characteristics.testBit 13

structure Fits (b : Blueprint) : Prop where
  fileHeader : Fit fileHeaderWidths b.fileHeader
  standard : Fit standardWidths b.standard
  bases : Fit b.baseWidths b.bases
  trailing : Fit (trailingWidths b.wordWidth) b.trailing
  parts : ∀ p ∈ b.parts, p.Fits

def dosHeaderSize : Nat := 0x40

/-- An image of the described file. Anything may lie between its pieces. -/
structure IsImage (b : Blueprint) (image : Bytes) : Prop where
  fits : b.Fits
  pointerFits : b.pointer < 256 ^ 4
  hasOptional : b.optionalSize ≠ 0
  dosMark : [0x4d, 0x5a] <+: image
  pointed : toLittle 4 b.pointer <+: image.drop pointerOffset
  behindDosHeader : dosHeaderSize ≤ b.pointer
  headers : b.headers <+: image.drop b.pointer
  sectionTable : b.sectionTable <+: image.drop (b.pointer + optionalOffset + b.optionalSize)

/-- The header of an image of the file. -/
structure Describes (b : Blueprint) (h : Header) : Prop where
  format : h.format = .pe
  kind : h.kind = if b.isLibrary then .sharedObject else .executable
  is64 : h.is64 = b.is64
  entry : ∀ e : Word, h.entry = some e ↔ e.toNat = b.base + b.entry
  sections : List.Forall₂ (Part.Gives b.base) (b.parts.filter (·.isPlaced b.base)) h.sections

end Blueprint

/-! ## Sections -/

theorem head?_encode_ne_slash {name : String} (h : name.toList.head? ≠ some '/') :
    (Utf8.encode name).head? ≠ some 0x2f := by
  intro slash
  rw [Utf8.encode] at slash
  cases chars : name.toList with
  | nil => rw [chars] at slash; cases slash
  | cons c cs =>
    obtain ⟨lead, tail, encoded, _⟩ := Utf8.begins_encodeChar c []
    have front : Utf8.encodeChars (c :: cs) = Utf8.encodeChar c ++ Utf8.encodeChars cs := rfl
    rw [chars, front, encoded] at slash
    obtain rfl := Option.some.inj slash
    have same : c = Char.ofNat (0x2f : UInt8).toNat :=
      Utf8.eq_of_mem_encodeChar (encoded ▸ List.mem_cons_self) (by decide)
    rw [chars, same] at h
    exact h rfl

theorem nameField_of_noSlash {raw : Bytes} (h : raw.head? ≠ some 0x2f) :
    nameField raw = some (.short (nameOf raw)) := by
  unfold nameField
  split
  · exact absurd rfl h
  · exact absurd rfl h
  · rfl

theorem IsPlain.sectionName {name : String} (plain : IsPlain name) (strings : Nat)
    (image : Bytes) : sectionName (padded 8 name) strings image = some name := by
  have noSlash : (padded 8 name).head? ≠ some 0x2f := by
    rw [padded, List.head?_append]
    intro slash
    rcases Option.or_eq_some_iff.mp slash with inName | ⟨_, behind⟩
    · exact head?_encode_ne_slash plain.noSlash inName
    · have zero := (List.mem_replicate.mp (List.mem_of_head? behind)).2
      exact absurd zero (by decide)
  rw [Pe.sectionName, nameField_of_noSlash noSlash, plain.nameOf_padded]
  rfl

/-- The section header that describes a part. -/
def Part.raw (p : Part) : SectionHeader :=
  { rawName := padded 8 p.name, virtualSize := p.virtualSize, virtualAddress := p.virtualAddress,
    rawSize := p.rawSize, rawOffset := p.rawOffset }

theorem Part.Fits.readSectionHeader {p : Part} (fits : p.Fits) (rest : Bytes) :
    readSectionHeader (p.bytes ++ rest) = some (p.raw, rest) := by
  have name := takeBytes_append_of_length fits.plain.length_padded
  have numbers := readNumbers_writeRecord .little fits.numbers rest
  rw [Part.widths] at numbers
  rw [Pe.readSectionHeader, Part.bytes, List.append_assoc, name]
  simp only [Option.bind_eq_bind, Option.bind_some, Part.widths, numbers]
  rfl

theorem Part.Fits.length_bytes {p : Part} (fits : p.Fits) : p.bytes.length = sectionHeaderSize := by
  have numbers : widths.length = p.numbers.length := rfl
  rw [bytes, List.length_append, fits.plain.length_padded, length_writeRecord .little numbers]
  rfl

/-- The section that a placed part becomes. -/
def Part.mapping (base : Nat) (p : Part) : Section :=
  { name := p.name, address := UInt64.ofNat (base + p.virtualAddress),
    size := UInt64.ofNat p.virtualSize, offset := UInt64.ofNat p.rawOffset }

theorem Part.mapping?_raw (base : Nat) (p : Part) :
    p.raw.mapping? base p.name = if p.isPlaced base then some (p.mapping base) else none := by
  by_cases placed : base + p.virtualAddress < Word.bound <;>
    simp [SectionHeader.mapping?, raw, Word.ofNat?, isPlaced, placed, mapping]

theorem Part.Fits.gives {p : Part} (fits : p.Fits) {base : Nat} (placed : p.isPlaced base = true) :
    p.Gives base (p.mapping base) := by
  have bound : 256 ^ 4 ≤ Word.bound := by decide
  have numbers := fits.numbers
  simp only [Fit, Part.widths, Part.numbers, List.forall₂_cons] at numbers
  obtain ⟨size, _, _, offset, _⟩ := numbers
  exact ⟨rfl, Word.toNat_ofNat_of_lt (of_decide_eq_true placed),
    Word.toNat_ofNat_of_lt (Nat.lt_of_lt_of_le size bound),
    Word.toNat_ofNat_of_lt (Nat.lt_of_lt_of_le offset bound)⟩

/-- Sections whose sums are no words are left out, and no others. -/
theorem filterMap_mapping? (base : Nat) (ps : List Part) :
    (ps.filterMap fun p => p.raw.mapping? base p.name) =
      (ps.filter (·.isPlaced base)).map (·.mapping base) := by
  induction ps with
  | nil => rfl
  | cons p ps ih =>
    by_cases placed : p.isPlaced base = true
    · simp [p.mapping?_raw, placed, ih]
    · simp [p.mapping?_raw, placed, ih]

theorem readSections_sectionTable {h : FileHeader} {ps : List Part} {image : Bytes} (base : Nat)
    (fits : ∀ p ∈ ps, p.Fits) (counted : h.sectionCount = ps.length)
    (room : ps.length * sectionHeaderSize ≤ image.length) (rest : Bytes) :
    readSections h base (ps.flatMap (·.bytes) ++ rest) image =
      some ((ps.filter (·.isPlaced base)).map (·.mapping base)) := by
  have few : ¬ ps.length > image.length / sectionHeaderSize := by
    rw [Nat.not_lt, Nat.le_div_iff_mul_le (by decide)]
    exact room
  have headers := readMany_flatMap (fun p hp => (fits p hp).readSectionHeader) rest
  have named (strings : Nat) :
      (ps.map (·.raw)).mapM
        (fun s => (sectionName s.rawName strings image).map fun n => (s, n)) =
      some (ps.map fun p => (p.raw, p.name)) := by
    rw [List.mapM_map]
    refine mapM_eq_some_map fun p hp => ?_
    have name : sectionName p.raw.rawName strings image = some p.name :=
      (fits p hp).plain.sectionName strings image
    exact congrArg (Option.map fun n => (p.raw, n)) name
  rw [readSections, counted, if_neg few, headers, ← filterMap_mapping?]
  simp [named, List.filterMap_map]

/-! ## Headers -/

namespace Blueprint

variable {b : Blueprint} {image : Bytes}

/-- What is read of the file header. -/
def raw (b : Blueprint) : FileHeader :=
  { sectionCount := b.parts.length, symbolOffset := b.symbolOffset, symbolCount := b.symbolCount,
    optionalSize := b.optionalSize, characteristics := b.characteristics }

theorem Fits.readFileHeader (fits : b.Fits) (rest : Bytes) :
    Pe.readFileHeader (writeRecord .little fileHeaderWidths b.fileHeader ++ rest) =
      some (b.raw, rest) := by
  have numbers := readNumbers_writeRecord .little fits.fileHeader rest
  rw [fileHeaderWidths] at numbers
  rw [Pe.readFileHeader, fileHeaderWidths, numbers]
  rfl

/-- The two layouts of optional headers. -/
theorem layout (b : Blueprint) :
    (b.is64 = false ∧ b.magic = 0x10b ∧ b.baseWidths = [4, 4] ∧ b.wordWidth = 4) ∨
      (b.is64 = true ∧ b.magic = 0x20b ∧ b.baseWidths = [8] ∧ b.wordWidth = 8) := by
  rw [magic, baseWidths, wordWidth]
  cases b.is64
  · exact Or.inl ⟨rfl, rfl, rfl, rfl⟩
  · exact Or.inr ⟨rfl, rfl, rfl, rfl⟩

theorem Fits.readOptionalHeader (fits : b.Fits) (rest : Bytes) :
    Pe.readOptionalHeader (b.optionalHeader ++ rest) = some ⟨b.is64, b.entry, b.base⟩ := by
  have standard := readNumbers_writeRecord .little fits.standard
  have bases := readNumbers_writeRecord .little fits.bases
  have trailing := readNumbers_writeRecord .little fits.trailing
  have first : b.standard[0]? = some b.magic := rfl
  have entry : b.standard[6]? = some b.entry := rfl
  have base : b.bases.getLast? = some b.base := by
    rw [Blueprint.bases]
    cases b.is64 <;> rfl
  have directories : b.trailing.getLast? = some 0 := List.getLast?_concat
  have nothing : takeBytes 0 rest = some ([], rest) := takeBytes_append [] rest
  rw [Pe.readOptionalHeader, optionalHeader, List.append_assoc, List.append_assoc, standard]
  simp only [Option.bind_eq_bind, Option.bind_some, first, entry]
  rcases b.layout with ⟨is64, magic, widths, width⟩ | ⟨is64, magic, widths, width⟩
  all_goals
    rw [widths] at bases
    rw [width] at trailing
    simp [is64, magic, widths, width, bases, base, trailing, directories, nothing]

/-! ## Images -/

/-- The header that an image of the file is read as. -/
def header (b : Blueprint) : Header where
  format := .pe
  kind := if b.isLibrary then .sharedObject else .executable
  is64 := b.is64
  entry := Word.ofNat? (b.base + b.entry)
  sections := (b.parts.filter (·.isPlaced b.base)).map (·.mapping b.base)

theorem Fits.describes_header (fits : b.Fits) : b.Describes b.header where
  format := rfl
  kind := rfl
  is64 := rfl
  entry e := by
    constructor
    · exact Word.toNat_of_ofNat?
    · intro sum
      rw [header, ← sum, Word.ofNat?_toNat]
  sections := by
    rw [header, List.forall₂_map_right_iff, List.forall₂_same]
    intro p hp
    obtain ⟨member, placed⟩ := List.mem_filter.mp hp
    exact (fits.parts p member).gives placed

theorem length_fileHeader (b : Blueprint) :
    (signature ++ writeRecord .little fileHeaderWidths b.fileHeader).length = optionalOffset := by
  have numbers : fileHeaderWidths.length = b.fileHeader.length := rfl
  rw [List.length_append, length_writeRecord .little numbers]
  rfl

theorem Fits.length_optionalHeader (fits : b.Fits) :
    b.optionalHeader.length = if b.is64 then 112 else 96 := by
  have standard := length_writeRecord .little fits.standard.length_eq
  have bases := length_writeRecord .little fits.bases.length_eq
  have trailing := length_writeRecord .little fits.trailing.length_eq
  rw [optionalHeader, List.length_append, List.length_append, standard, bases, trailing]
  rcases b.layout with ⟨is64, _, widths, width⟩ | ⟨is64, _, widths, width⟩
  all_goals
    rw [is64, widths, width]
    rfl

/-- The headers take the image past the stub that is looked for in it. -/
theorem IsImage.inside_stub (h : b.IsImage image) : inside 0 stubEnd image = true := by
  have behind := h.behindDosHeader
  have within := h.headers.length_le
  have least : 96 ≤ b.optionalHeader.length := by
    rw [h.fits.length_optionalHeader]
    split <;> decide
  rw [Blueprint.headers, ← List.append_assoc, List.length_append, length_fileHeader, List.length_drop,
    optionalOffset] at within
  rw [dosHeaderSize] at behind
  exact decide_eq_true (by rw [stubEnd]; omega)

theorem IsImage.recognise (h : b.IsImage image) : Pe.recognise image = some b.header := by
  obtain ⟨rest, split⟩ := h.headers
  obtain ⟨last, table⟩ := h.sectionTable
  have pointer : readNumberAt .little pointerOffset 4 image = some b.pointer :=
    readNumberAt_of_prefix h.pointerFits h.pointed
  have mark : takeBytes 4 (image.drop b.pointer) = some (signature,
      writeRecord .little fileHeaderWidths b.fileHeader ++ (b.optionalHeader ++ rest)) := by
    rw [← split, Blueprint.headers, List.append_assoc, List.append_assoc]
    exact takeBytes_append signature _
  have behind : image.drop (b.pointer + optionalOffset) = b.optionalHeader ++ rest := by
    rw [← List.drop_drop, ← split, Blueprint.headers, ← List.append_assoc, List.append_assoc,
      List.drop_left' b.length_fileHeader]
  have sections : readSections b.raw b.base
      ((b.optionalHeader ++ rest).drop b.raw.optionalSize) image = some b.header.sections := by
    have room := h.sectionTable.length_le
    rw [Blueprint.sectionTable, length_flatMap_eq_mul fun p hp => (h.fits.parts p hp).length_bytes,
      List.length_drop] at room
    rw [← behind, List.drop_drop, raw, ← table]
    exact readSections_sectionTable b.base h.fits.parts rfl (by omega) last
  have library : (b.raw.characteristics / library % 2 = 1) = (b.isLibrary = true) := by
    rw [isLibrary, Nat.testBit_eq_decide_div_mod_eq, decide_eq_true_eq]
    rfl
  have given : b.raw.optionalSize ≠ 0 := h.hasOptional
  rw [Pe.recognise, pointer]
  simp only [Option.bind_eq_bind, Option.bind_some, mark, h.inside_stub, h.fits.readFileHeader,
    if_neg given, h.fits.readOptionalHeader, library, sections]
  rfl

theorem IsImage.recognise? (h : b.IsImage image) : Image.recognise? image = Pe.recognise image := by
  have long : ¬ image.length < leastSize := by
    have stub := of_decide_eq_true h.inside_stub
    rw [stubEnd] at stub
    rw [leastSize]
    omega
  obtain ⟨rest, rfl⟩ := h.dosMark
  unfold Image.recognise?
  rw [if_neg long]
  rfl

end Blueprint

/-! ## Assembled images -/

namespace Blueprint

/-- The file with its headers right behind the DOS header, and its section table behind them. -/
def assembled (b : Blueprint) : Blueprint :=
  { b with pointer := dosHeaderSize, optionalSize := b.optionalHeader.length }

def image (b : Blueprint) : Bytes :=
  [0x4d, 0x5a] ++ List.replicate 0x3a 0 ++ toLittle 4 dosHeaderSize ++ b.assembled.headers ++
    b.sectionTable

variable {b : Blueprint}

theorem Fits.assembled (fits : b.Fits) : b.assembled.Fits where
  fileHeader := by
    have given := fits.fileHeader
    have size := fits.length_optionalHeader
    have short : b.optionalHeader.length < 256 ^ 2 := by
      rw [size]
      split <;> decide
    simp only [Fit, fileHeaderWidths, Blueprint.fileHeader, List.forall₂_cons] at given ⊢
    obtain ⟨machine, count, timestamp, symbols, symbolCount, _, rest⟩ := given
    exact ⟨machine, count, timestamp, symbols, symbolCount, short, rest⟩
  standard := fits.standard
  bases := fits.bases
  trailing := fits.trailing
  parts := fits.parts

/-- An assembled file is the image of what it was assembled from. -/
theorem Fits.isImage (fits : b.Fits) : b.assembled.IsImage b.image := by
  have pointerAt : ([0x4d, 0x5a] ++ List.replicate 0x3a 0 : Bytes).length = pointerOffset := rfl
  have front : ([0x4d, 0x5a] ++ List.replicate 0x3a 0 ++ toLittle 4 dosHeaderSize : Bytes).length =
      dosHeaderSize := rfl
  have headersAt : b.image.drop dosHeaderSize = b.assembled.headers ++ b.sectionTable := by
    rw [image, List.append_assoc, List.drop_left' front]
  have size : b.assembled.headers.length = optionalOffset + b.optionalHeader.length := by
    rw [Blueprint.headers, ← List.append_assoc, List.length_append, length_fileHeader]
    rfl
  refine ⟨fits.assembled, (by decide : dosHeaderSize < 256 ^ 4), ?_, ?_, ?_, Nat.le_refl _, ?_, ?_⟩
  · have least := fits.length_optionalHeader
    have some : 0 < b.optionalHeader.length := by
      rw [least]
      split <;> decide
    exact Nat.ne_of_gt some
  · exact ⟨_, by rw [image, List.append_assoc, List.append_assoc, List.append_assoc]⟩
  · refine ⟨b.assembled.headers ++ b.sectionTable, ?_⟩
    rw [image, List.append_assoc, List.append_assoc, List.drop_left' pointerAt]
    rfl
  · exact ⟨b.sectionTable, headersAt.symm⟩
  · refine ⟨[], ?_⟩
    have past : b.image.drop (dosHeaderSize + (optionalOffset + b.optionalHeader.length)) =
        b.sectionTable := by
      rw [← List.drop_drop, headersAt, List.drop_left' size]
    rw [List.append_nil, Nat.add_assoc]
    exact past.symm

/-- An image of a described file is read as the header that the description gives: exactly the
sections, in their order, whose sums with the base are words, each at its sum, and the entry point
likewise. Every description whose numbers fit has an image. -/
theorem sections_and_entry_are_placed_exactly :
    (∀ (b : Blueprint) (image : Bytes), b.IsImage image → b.Describes (Header.ofImage image)) ∧
    ∀ b : Blueprint, b.Fits → b.assembled.IsImage b.image := by
  refine ⟨fun b image h => ?_, fun b fits => fits.isImage⟩
  rw [Header.ofImage, h.recognise?, h.recognise, Option.getD_some]
  exact h.fits.describes_header

/-- A section without bytes on disk. -/
def samplePart (name : String) (virtualAddress : Nat) : Part where
  name
  virtualSize := 0x10
  virtualAddress
  rawSize := 0
  rawOffset := 0x200
  relocationOffset := 0
  lineOffset := 0
  relocationCount := 0
  lineCount := 0
  characteristics := 0x60000020

/-- A library two pages below the end of the address space. -/
def sample : Blueprint where
  pointer := 0
  machine := 0x8664
  timestamp := 0
  symbolOffset := 0
  symbolCount := 0
  optionalSize := 0
  characteristics := 0x2022
  is64 := true
  linkerMajor := 0
  linkerMinor := 0
  codeSize := 0x10
  dataSize := 0
  zeroedSize := 0
  entry := 0x2000
  codeBase := 0x1000
  dataBase := 0
  base := 0xffffffffffffe000
  settings := List.replicate 19 0
  parts := [samplePart ".text" 0x1000, samplePart ".data" 0x2000, samplePart "last é" 0x1fff]

/-- The entry point and the second section would be behind the last address. -/
theorem sections_below_the_end_are_kept :
    sample.Fits ∧ (Header.ofImage sample.image).kind = .sharedObject ∧
      (Header.ofImage sample.image).entry = none ∧
      List.Forall₂ (Part.Gives 0xffffffffffffe000)
        [samplePart ".text" 0x1000, samplePart "last é" 0x1fff]
        (Header.ofImage sample.image).sections := by
  have plain : ∀ p ∈ sample.parts, IsPlain p.name := by
    intro p hp
    exact ⟨⟨by revert p; decide +kernel, by revert p; decide +kernel⟩, by revert p; decide +kernel⟩
  have fits : sample.Fits :=
    ⟨by decide +kernel, by decide +kernel, by decide +kernel, by decide +kernel,
      fun p hp => ⟨plain p hp, by revert p; decide +kernel⟩⟩
  obtain ⟨read, assembled⟩ := sections_and_entry_are_placed_exactly
  have described := read _ _ (assembled _ fits)
  have kept : sample.parts.filter (·.isPlaced sample.base) =
      [samplePart ".text" 0x1000, samplePart "last é" 0x1fff] := rfl
  refine ⟨fits, described.kind, ?_, kept ▸ described.sections⟩
  -- No word is as great as the base and the entry together.
  refine Option.eq_none_iff_forall_ne_some.mpr fun e placed => ?_
  have sum := (described.entry e).mp placed
  have bound := e.toNat_lt
  have whole : sample.assembled.base + sample.assembled.entry = 2 ^ 64 := by decide
  omega

end Blueprint

end BasicBlocks.Image.Pe
