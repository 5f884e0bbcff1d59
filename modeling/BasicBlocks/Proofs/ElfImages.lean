import Mathlib.Data.Nat.Bitwise
import BasicBlocks.Image.Recognition
import BasicBlocks.Proofs.NameFields

/-!
# ELF images of described files

A file is described by its numbers and its sections, one of which holds the names of all. Every
image of a described file is read as the header that the description gives: the sections that are
loaded with bytes of their own, in their order, under their names.
-/

namespace BasicBlocks.Image

open Utf8 (Bytes IsText)

/-! ## Names -/

/-- A name that stands in a table: from an offset up to a zero byte or the end. -/
structure StandsAt (name : String) (offset : Nat) (table : Bytes) : Prop where
  noZero : '\x00' ∉ name.toList
  ends : ∃ after, table.drop offset = Utf8.encode name ++ after ∧ ∀ b ∈ after.head?, b = 0

theorem StandsAt.nameAt {name : String} {offset : Nat} {table : Bytes}
    (h : StandsAt name offset table) : Elf.nameAt table offset = name := by
  obtain ⟨after, split, stop⟩ := h.ends
  rw [Elf.nameAt, split, nameOf_encode_append h.noZero stop]

namespace Elf

/-! ## Descriptions -/

/-- The types of sections that nothing else is known of. -/
inductive SectionType
  | null
  | progBits
  | stringTable
  | note
  | noBits
  deriving DecidableEq

def SectionType.code : SectionType → Nat
  | .null => 0
  | .progBits => 1
  | .stringTable => 3
  | .note => 7
  | .noBits => 8

inductive FileType
  | relocatable
  | executable
  | sharedObject
  | core
  | other (code : Nat) (unassigned : code = 0 ∨ 4 < code)

namespace FileType

def code : FileType → Nat
  | .relocatable => 1
  | .executable => 2
  | .sharedObject => 3
  | .core => 4
  | .other code _ => code

def kind : FileType → ObjectKind
  | .relocatable => .relocatable
  | .executable => .executable
  | .sharedObject => .sharedObject
  | .core => .core
  | .other _ _ => .unknown

theorem kindOf_code (t : FileType) : kindOf t.code = t.kind := by
  cases t with
  | other code unassigned =>
    simp only [FileType.code, kind, kindOf]
    split <;> first | rfl | omega
  | _ => rfl

end FileType

def Class.byte : Class → UInt8
  | .bits32 => 1
  | .bits64 => 2

def orderByte : ByteOrder → UInt8
  | .little => 1
  | .big => 2

/-- A section with everything that its header says. -/
structure Part where
  name : String
  nameOffset : Nat
  type : SectionType
  flags : Nat
  address : Word
  offset : Word
  size : Word
  link : Nat
  info : Nat
  alignment : Nat
  entrySize : Nat

namespace Part

def numbers (p : Part) : List Nat :=
  [p.nameOffset, p.type.code, p.flags, p.address.toNat, p.offset.toNat, p.size.toNat, p.link,
    p.info, p.alignment, p.entrySize]

/-- Bit 1 of the flags is for sections that occupy memory. -/
def isLoaded (p : Part) : Bool := p.flags.testBit 1 && p.type ≠ .noBits && p.size ≠ 0

def mapping (p : Part) : Section := ⟨p.name, p.address, p.size, p.offset⟩

def bytes (p : Part) (image : Bytes) : Bytes := (image.drop p.offset.toNat).take p.size.toNat

end Part

/-- A file without program headers. -/
structure Blueprint where
  cls : Class
  order : ByteOrder
  type : FileType
  entry : Word
  machine : Nat
  version : Nat
  flags : Nat
  programOffset : Nat
  sectionOffset : Nat
  headerSize : Nat
  programEntrySize : Nat
  sectionEntrySize : Nat
  before : List Part
  /-- The section that holds the names of all sections. -/
  names : Part
  after : List Part

namespace Blueprint

def parts (b : Blueprint) : List Part := b.before ++ b.names :: b.after

def numbers (b : Blueprint) : List Nat :=
  [b.type.code, b.machine, b.version, b.entry.toNat, b.programOffset, b.sectionOffset, b.flags,
    b.headerSize, b.programEntrySize, 0, b.sectionEntrySize, b.parts.length, b.before.length]

/-- The header that the description gives. -/
def header (b : Blueprint) : Header where
  format := .elf
  kind := b.type.kind
  is64 := b.cls = .bits64
  entry := some b.entry
  sections := (b.parts.filter (·.isLoaded)).map (·.mapping)

/-- An image of the described file. Anything may lie between its pieces, or they may overlap. -/
structure IsImage (b : Blueprint) (image : Bytes) : Prop where
  identification : magic ++ [b.cls.byte, orderByte b.order] <+: image
  numbersFit : Fit b.cls.fileHeaderWidths b.numbers
  fileHeader : writeRecord b.order b.cls.fileHeaderWidths b.numbers <+: image.drop 16
  partsFit : ∀ p ∈ b.parts, Fit b.cls.sectionHeaderWidths p.numbers
  notAtStart : b.sectionOffset ≠ 0
  sectionHeaders :
    b.parts.flatMap (fun p => writeRecord b.order b.cls.sectionHeaderWidths p.numbers)
      <+: image.drop b.sectionOffset
  namesType : b.names.type = .stringTable
  namesInside : b.names.offset.toNat + b.names.size.toNat ≤ image.length
  namesText : IsText (b.names.bytes image)
  named : ∀ p ∈ b.parts, StandsAt p.name p.nameOffset (b.names.bytes image)

/-- The names' own addresses, if they are to be loaded at any, are words. -/
def NamesPlaced (b : Blueprint) : Prop :=
  b.names.size ≠ 0 → b.names.address.toNat + b.names.size.toNat < Word.bound

end Blueprint

/-! ## Reading -/

theorem ofByte?_byte (c : Class) : Class.ofByte? c.byte = some c := by cases c <;> rfl

theorem byteOrderOf?_orderByte (o : ByteOrder) : byteOrderOf? (orderByte o) = some o := by
  cases o <;> rfl

/-- The section header that describes a part. -/
def Part.raw (p : Part) : SectionHeader :=
  { name := p.nameOffset, type := p.type.code, flags := p.flags, address := p.address.toNat,
    offset := p.offset.toNat, size := p.size.toNat, link := p.link }

theorem readSectionHeader_record {c : Class} {o : ByteOrder} {p : Part}
    (fit : Fit c.sectionHeaderWidths p.numbers) (rest : Bytes) :
    readSectionHeader c o (writeRecord o c.sectionHeaderWidths p.numbers ++ rest) =
      some (p.raw, rest) := by
  rw [readSectionHeader, readNumbers_writeRecord o fit]
  rfl

theorem sum_sectionHeaderWidths (c : Class) : c.sectionHeaderWidths.sum = c.sectionHeaderSize := by
  cases c <;> rfl

theorem Part.isMapped_raw (p : Part) : p.raw.isMapped = p.isLoaded := by
  have flags : decide (p.raw.flags / allocated % 2 = 1) = p.flags.testBit 1 := by
    rw [Nat.testBit_eq_decide_div_mod_eq]
    rfl
  have type : decide (p.raw.type ≠ noBits) = decide (p.type ≠ .noBits) := by
    cases h : p.type <;> simp [raw, h, SectionType.code, noBits]
  have size : decide (p.raw.size > 0) = decide (p.size ≠ 0) := by
    have zero : p.size = 0 ↔ p.size.toNat = 0 := by
      rw [← UInt64.toNat_inj]
      rfl
    simp [raw, zero, Nat.pos_iff_ne_zero]
  rw [SectionHeader.isMapped, flags, type, size]
  rfl

theorem Part.mapping_raw {p : Part} {table : Bytes} (named : StandsAt p.name p.nameOffset table) :
    p.raw.mapping table = p.mapping := by
  simp [SectionHeader.mapping, raw, mapping, named.nameAt]

namespace Blueprint

variable {b : Blueprint} {image : Bytes}

/-- What is read of the file header. -/
def raw (b : Blueprint) : FileHeader :=
  { type := b.type.code, entry := b.entry.toNat, programOffset := b.programOffset,
    sectionOffset := b.sectionOffset, programCount := 0, sectionCount := b.parts.length,
    nameSection := b.before.length }

theorem IsImage.readFileHeader (h : b.IsImage image) :
    Elf.readFileHeader b.cls b.order (image.drop 16) = some b.raw := by
  obtain ⟨rest, split⟩ := h.fileHeader
  rw [Elf.readFileHeader, ← split, readNumbers_writeRecord b.order h.numbersFit]
  rfl

theorem length_sectionHeaders (o : ByteOrder) (c : Class) (ps : List Part) :
    (ps.flatMap fun p => writeRecord o c.sectionHeaderWidths p.numbers).length =
      ps.length * c.sectionHeaderSize := by
  refine length_flatMap_eq_mul fun p _ => ?_
  have same : c.sectionHeaderWidths.length = p.numbers.length := rfl
  rw [length_writeRecord o same, sum_sectionHeaderWidths]

theorem IsImage.parts_length_le (h : b.IsImage image) :
    b.parts.length ≤ image.length / b.cls.sectionHeaderSize := by
  have positive : 0 < b.cls.sectionHeaderSize := by cases b.cls <;> decide
  have within := h.sectionHeaders.length_le
  rw [length_sectionHeaders, List.length_drop] at within
  rw [Nat.le_div_iff_mul_le positive]
  omega

theorem IsImage.readSectionHeaders (h : b.IsImage image) :
    Elf.readSectionHeaders b.cls b.order b.raw image = some (b.parts.map (·.raw)) := by
  have counted : b.raw.sectionCount = b.parts.length := rfl
  have some : b.parts ≠ [] := by simp [parts]
  obtain ⟨p, ps, parts⟩ := List.exists_cons_of_ne_nil some
  obtain ⟨rest, split⟩ := h.sectionHeaders
  have fit := h.partsFit
  have fewer := h.parts_length_le
  rw [parts] at split fit fewer counted ⊢
  obtain ⟨first, others⟩ := List.forall_mem_cons.mp fit
  have one := readSectionHeader_record (o := b.order) first
  have later := readMany_flatMap
    (fun p hp => readSectionHeader_record (o := b.order) (others p hp)) rest
  have placed : b.raw.sectionOffset = b.sectionOffset := rfl
  rw [Elf.readSectionHeaders, if_neg (placed ▸ h.notAtStart), placed, ← split, List.flatMap_cons,
    List.append_assoc, one]
  simpa [counted, later] using fewer

theorem find_names (b : Blueprint) :
    (b.parts.map (·.raw))[b.before.length]? = some b.names.raw := by
  simp [parts]

theorem IsImage.overflows_iff (h : b.IsImage image) :
    (b.names.raw.hasFileBytes && decide (Word.bound ≤ b.names.raw.address + b.names.raw.size)) =
      true ↔ ¬ b.NamesPlaced := by
  have held : b.names.raw.hasFileBytes = true ↔ b.names.size ≠ 0 := by
    have zero : b.names.size = 0 ↔ b.names.size.toNat = 0 := by
      rw [← UInt64.toNat_inj]
      rfl
    simp [SectionHeader.hasFileBytes, Part.raw, h.namesType, SectionType.code, noBits, zero]
  rw [Bool.and_eq_true, held, decide_eq_true_eq, NamesPlaced, Classical.not_imp, Nat.not_lt]
  rfl

theorem IsImage.nameSection_lt (h : b.IsImage image) : b.raw.nameSection < extendedIndex := by
  have counted := h.numbersFit
  simp only [Class.fileHeaderWidths, numbers, Fit, List.forall₂_cons] at counted
  obtain ⟨_, _, _, _, _, _, _, _, _, _, _, count, _⟩ := counted
  simp only [parts, List.length_append, List.length_cons] at count
  have last : b.before.length < 0xffff := by omega
  exact last

theorem IsImage.readNames (h : b.IsImage image) :
    Elf.readNames b.raw (b.parts.map (·.raw)) image =
      if b.names.raw.hasFileBytes &&
        decide (Word.bound ≤ b.names.raw.address + b.names.raw.size) then none
      else some (b.names.bytes image) := by
  have inside : inside b.names.raw.offset b.names.raw.size image = true :=
    decide_eq_true h.namesInside
  have bytes : (image.drop b.names.raw.offset).take b.names.raw.size = b.names.bytes image := rfl
  have isText : (Utf8.decode? (b.names.bytes image)).isSome = true := by
    obtain ⟨text, encoded⟩ := h.namesText
    rw [Utf8.decode?, Utf8.decode_eq_ok_iff.mpr encoded]
    rfl
  have found : (b.parts.map (·.raw))[b.raw.nameSection]? = some b.names.raw := find_names b
  simp only [Elf.readNames, if_neg (Nat.ne_of_lt h.nameSection_lt), found, inside, bytes, isText]
  rfl

theorem mappings_eq {table : Bytes} {ps : List Part}
    (named : ∀ p ∈ ps, StandsAt p.name p.nameOffset table) :
    ((ps.map (·.raw)).filter (·.isMapped)).map (·.mapping table) =
      (ps.filter (·.isLoaded)).map (·.mapping) := by
  induction ps with
  | nil => rfl
  | cons p ps ih =>
    obtain ⟨first, others⟩ := List.forall_mem_cons.mp named
    have rest := ih others
    by_cases loaded : p.isLoaded = true
    · simp [p.isMapped_raw, loaded, Part.mapping_raw first, rest]
    · simp [p.isMapped_raw, loaded, rest]

theorem IsImage.recognise (h : b.IsImage image) :
    (b.NamesPlaced → Elf.recognise image = some b.header) ∧
      (¬ b.NamesPlaced → Elf.recognise image = none) := by
  obtain ⟨rest, begins⟩ := h.identification
  have four : image[4]? = some b.cls.byte := by rw [← begins]; rfl
  have five : image[5]? = some (orderByte b.order) := by rw [← begins]; rfl
  have front : Elf.recognise image =
      (Elf.readNames b.raw (b.parts.map (·.raw)) image).map fun table =>
        { b.header with
          sections := ((b.parts.map (·.raw)).filter (·.isMapped)).map (·.mapping table) } := by
    have programs : programHeadersInside b.cls b.raw image = true := rfl
    rw [Elf.recognise, four, five, Option.bind_some, Option.bind_some, ofByte?_byte,
      byteOrderOf?_orderByte]
    simp only [Option.bind_eq_bind, Option.bind_some, h.readFileHeader, programs,
      h.readSectionHeaders]
    cases Elf.readNames b.raw (b.parts.map (·.raw)) image with
    | none => rfl
    | some table => simp [header, raw, FileType.kindOf_code]
  rw [front, h.readNames]
  constructor
  · intro placed
    rw [if_neg fun overflows => h.overflows_iff.mp overflows placed, Option.map_some,
      mappings_eq h.named]
    rfl
  · intro unplaced
    rw [if_pos (h.overflows_iff.mpr unplaced)]
    rfl

theorem IsImage.recognise? (h : b.IsImage image) :
    Image.recognise? image = Elf.recognise image := by
  have long : ¬ image.length < leastSize := by
    have within := h.fileHeader.length_le
    have numbers : b.cls.fileHeaderWidths.length = b.numbers.length := rfl
    have some : 0 < b.cls.fileHeaderWidths.sum := by cases b.cls <;> decide
    rw [length_writeRecord b.order numbers, List.length_drop] at within
    rw [leastSize]
    omega
  obtain ⟨rest, rfl⟩ := h.identification
  unfold Image.recognise?
  rw [if_neg long]
  rfl

end Blueprint

/-! ## Assembled images -/

/-- Names one after the other, each with a zero byte behind it. -/
def nameBytes (ps : List Part) : Bytes := ps.flatMap fun p => Utf8.encode p.name ++ [0]

/-- Parts whose names stand one after the other from an offset on. -/
def placeNames : Nat → List Part → List Part
  | _, [] => []
  | n, p :: ps => { p with nameOffset := n } :: placeNames (n + (nameBytes [p]).length) ps

theorem placeNames_append (n : Nat) (ps qs : List Part) :
    placeNames n (ps ++ qs) = placeNames n ps ++ placeNames (n + (nameBytes ps).length) qs := by
  induction ps generalizing n with
  | nil => rfl
  | cons p ps ih =>
    have front : nameBytes (p :: ps) = nameBytes [p] ++ nameBytes ps := by simp [nameBytes]
    simp only [List.cons_append, placeNames, ih, front, List.length_append, Nat.add_assoc]

theorem standsAt_of_mem_placeNames {ps : List Part} (noZero : ∀ p ∈ ps, '\x00' ∉ p.name.toList)
    (before : Bytes) :
    ∀ p ∈ placeNames before.length ps, StandsAt p.name p.nameOffset (before ++ nameBytes ps) := by
  induction ps generalizing before with
  | nil => simp [placeNames]
  | cons p ps ih =>
    obtain ⟨first, others⟩ := List.forall_mem_cons.mp noZero
    have front : nameBytes (p :: ps) = nameBytes [p] ++ nameBytes ps := by simp [nameBytes]
    rw [placeNames, List.forall_mem_cons]
    constructor
    · refine ⟨first, 0 :: nameBytes ps, ?_, by simp⟩
      simp [nameBytes]
    · have later := ih others (before ++ nameBytes [p])
      rwa [List.length_append, List.append_assoc, ← front] at later

/-- Placing changes nothing but where a name stands. -/
theorem exists_of_mem_placeNames {n : Nat} {ps : List Part} {p : Part} (h : p ∈ placeNames n ps) :
    ∃ q ∈ ps, ∃ m < n + (nameBytes ps).length, p = { q with nameOffset := m } := by
  induction ps generalizing n with
  | nil => cases h
  | cons q ps ih =>
    have front : nameBytes (q :: ps) = nameBytes [q] ++ nameBytes ps := by simp [nameBytes]
    have filled : 0 < (nameBytes [q]).length := by simp [nameBytes]
    rw [front, List.length_append]
    rcases List.mem_cons.mp h with rfl | h
    · exact ⟨q, List.mem_cons_self, n, by omega, rfl⟩
    · obtain ⟨r, hr, m, hm, rfl⟩ := ih h
      exact ⟨r, List.mem_cons_of_mem q hr, m, by omega, rfl⟩

theorem length_placeNames (n : Nat) (ps : List Part) : (placeNames n ps).length = ps.length := by
  induction ps generalizing n with
  | nil => rfl
  | cons p ps ih => simp [placeNames, ih]

theorem isText_nameBytes (ps : List Part) : IsText (nameBytes ps) := by
  refine ⟨String.ofList (ps.flatMap fun p => p.name.toList ++ ['\x00']), ?_⟩
  have zero : Utf8.encodeChar '\x00' = [0] := by decide
  rw [Utf8.encode, String.toList_ofList, Utf8.encodeChars, List.flatMap_assoc, nameBytes]
  simp [List.flatMap_append, zero, Utf8.encode, Utf8.encodeChars]

namespace Blueprint

/-- Where the file header ends. -/
def headerEnd (b : Blueprint) : Nat := 16 + b.cls.fileHeaderWidths.sum

/-- The file with its names right behind its header, and its section headers behind them. -/
def assembled (b : Blueprint) : Blueprint :=
  { b with
    sectionOffset := b.headerEnd + (nameBytes b.parts).length
    before := placeNames 0 b.before
    names := { b.names with
      nameOffset := (nameBytes b.before).length
      offset := UInt64.ofNat b.headerEnd
      size := UInt64.ofNat (nameBytes b.parts).length }
    after := placeNames (nameBytes (b.before ++ [b.names])).length b.after }

def image (b : Blueprint) : Bytes :=
  magic ++ [b.cls.byte, orderByte b.order] ++ List.replicate 10 0 ++
    writeRecord b.order b.cls.fileHeaderWidths b.assembled.numbers ++ nameBytes b.parts ++
    b.assembled.parts.flatMap fun p => writeRecord b.order b.cls.sectionHeaderWidths p.numbers

/-- All that the file says fits where it says it. -/
structure Fits (b : Blueprint) : Prop where
  numbersFit : Fit b.cls.fileHeaderWidths b.numbers
  partsFit : ∀ p ∈ b.parts, Fit b.cls.sectionHeaderWidths p.numbers
  noZero : ∀ p ∈ b.parts, '\x00' ∉ p.name.toList
  namesType : b.names.type = .stringTable
  short : b.headerEnd + (nameBytes b.parts).length < 2 ^ 32

/-- The section of the names, where they are put. -/
def placedNames (b : Blueprint) : Part :=
  { b.names with
    offset := UInt64.ofNat b.headerEnd
    size := UInt64.ofNat (nameBytes b.parts).length }

theorem parts_assembled (b : Blueprint) :
    b.assembled.parts = placeNames 0 (b.before ++ b.placedNames :: b.after) := by
  rw [placeNames_append, placeNames]
  simp [parts, assembled, nameBytes, placedNames]

theorem nameBytes_placed (b : Blueprint) :
    nameBytes (b.before ++ b.placedNames :: b.after) = nameBytes b.parts := by
  simp [nameBytes, parts, placedNames]

theorem length_parts_assembled (b : Blueprint) : b.assembled.parts.length = b.parts.length := by
  rw [parts_assembled, length_placeNames, parts]
  simp

variable {b : Blueprint}

theorem Fits.toNat_offset (fits : b.Fits) : b.placedNames.offset.toNat = b.headerEnd := by
  have short := fits.short
  exact Word.toNat_ofNat_of_lt (by rw [Word.bound, UInt64.size]; omega)

theorem Fits.toNat_size (fits : b.Fits) :
    b.placedNames.size.toNat = (nameBytes b.parts).length := by
  have short := fits.short
  exact Word.toNat_ofNat_of_lt (by rw [Word.bound, UInt64.size]; omega)

theorem Fits.parts_assembled (fits : b.Fits) :
    ∀ p ∈ b.assembled.parts, Fit b.cls.sectionHeaderWidths p.numbers := by
  have short := fits.short
  have wide : 2 ^ 32 ≤ 256 ^ b.cls.wordWidth := by cases b.cls <;> decide
  have placed : ∀ p ∈ b.before ++ b.placedNames :: b.after,
      Fit b.cls.sectionHeaderWidths p.numbers := by
    have given := fits.partsFit
    rw [parts, List.forall_mem_append, List.forall_mem_cons] at given
    rw [List.forall_mem_append, List.forall_mem_cons]
    refine ⟨given.1, ?_, given.2.2⟩
    have names := given.2.1
    simp only [Fit, Class.sectionHeaderWidths, Part.numbers, List.forall₂_cons] at names ⊢
    obtain ⟨name, type, flags, address, _, _, rest⟩ := names
    rw [fits.toNat_offset, fits.toNat_size]
    simp only [placedNames]
    exact ⟨name, type, flags, address, by omega, by omega, rest⟩
  intro p hp
  rw [b.parts_assembled] at hp
  obtain ⟨q, hq, m, hm, rfl⟩ := exists_of_mem_placeNames hp
  have fit := placed q hq
  rw [nameBytes_placed] at hm
  simp only [Fit, Class.sectionHeaderWidths, Part.numbers, List.forall₂_cons] at fit ⊢
  exact ⟨by omega, fit.2⟩

theorem Fits.numbers_assembled (fits : b.Fits) :
    Fit b.cls.fileHeaderWidths b.assembled.numbers := by
  have short := fits.short
  have wide : 2 ^ 32 ≤ 256 ^ b.cls.wordWidth := by cases b.cls <;> decide
  have given := fits.numbersFit
  have before : b.assembled.before.length = b.before.length := length_placeNames 0 b.before
  have table : b.assembled.sectionOffset = b.headerEnd + (nameBytes b.parts).length := rfl
  simp only [Fit, Class.fileHeaderWidths, Blueprint.numbers, List.forall₂_cons,
    length_parts_assembled, before] at given ⊢
  obtain ⟨type, machine, version, entry, programs, _, rest⟩ := given
  exact ⟨type, machine, version, entry, programs, by omega, rest⟩

/-- An assembled file is the image of what it was assembled from. -/
theorem Fits.isImage (fits : b.Fits) : b.assembled.IsImage b.image := by
  have start : (magic ++ [b.cls.byte, orderByte b.order] ++ List.replicate 10 0).length = 16 := rfl
  have record : (writeRecord b.order b.cls.fileHeaderWidths b.assembled.numbers).length =
      b.cls.fileHeaderWidths.sum := length_writeRecord b.order rfl
  have names : b.assembled.names.offset = b.placedNames.offset ∧
      b.assembled.names.size = b.placedNames.size := ⟨rfl, rfl⟩
  have behindStart : b.image.drop 16 =
      writeRecord b.order b.cls.fileHeaderWidths b.assembled.numbers ++ (nameBytes b.parts ++
        b.assembled.parts.flatMap fun p =>
          writeRecord b.order b.cls.sectionHeaderWidths p.numbers) := by
    rw [image, List.append_assoc, List.append_assoc, List.drop_left' start]
  have behindHeader : b.image.drop b.headerEnd = nameBytes b.parts ++
      b.assembled.parts.flatMap fun p =>
        writeRecord b.order b.cls.sectionHeaderWidths p.numbers := by
    rw [headerEnd, ← List.drop_drop, behindStart, List.drop_left' record]
  have behindNames : b.image.drop (b.headerEnd + (nameBytes b.parts).length) =
      b.assembled.parts.flatMap fun p =>
        writeRecord b.order b.cls.sectionHeaderWidths p.numbers := by
    rw [← List.drop_drop, behindHeader, List.drop_left]
  have bytes : b.assembled.names.bytes b.image = nameBytes b.parts := by
    rw [Part.bytes, names.1, names.2, fits.toNat_offset, fits.toNat_size, behindHeader,
      List.take_left]
  have inside : b.headerEnd + (nameBytes b.parts).length ≤ b.image.length := by
    have whole : b.image.length = 16 + b.cls.fileHeaderWidths.sum + (nameBytes b.parts).length +
        (b.assembled.parts.flatMap fun p =>
          writeRecord b.order b.cls.sectionHeaderWidths p.numbers).length := by
      rw [image, List.length_append, List.length_append, List.length_append, start, record]
    rw [headerEnd]
    omega
  constructor
  · exact ⟨_, by rw [image, List.append_assoc, List.append_assoc, List.append_assoc]; rfl⟩
  · exact fits.numbers_assembled
  · exact ⟨_, behindStart.symm⟩
  · exact fits.parts_assembled
  · have positive : 0 < b.headerEnd := by
      rw [headerEnd]
      omega
    exact Nat.ne_of_gt (Nat.add_pos_left positive _)
  · exact ⟨[], by rw [List.append_nil]; exact behindNames.symm⟩
  · exact fits.namesType
  · rw [names.1, names.2, fits.toNat_offset, fits.toNat_size]
    exact inside
  · rw [bytes]
    exact isText_nameBytes b.parts
  · rw [bytes, b.parts_assembled, ← nameBytes_placed]
    have noZero : ∀ p ∈ b.before ++ b.placedNames :: b.after, '\x00' ∉ p.name.toList := by
      have given := fits.noZero
      rw [parts, List.forall_mem_append, List.forall_mem_cons] at given
      rw [List.forall_mem_append, List.forall_mem_cons]
      exact given
    exact standsAt_of_mem_placeNames noZero []

/-- An image of a described file is read as the header of the description, whatever lies between its
pieces, and every description whose numbers fit has one. Only where the names' own addresses run
past the last word is nothing recognised. -/
theorem images_are_read_as_described :
    (∀ (b : Blueprint) (image : Bytes), b.IsImage image →
      (b.NamesPlaced → Header.ofImage image = b.header) ∧
        (¬ b.NamesPlaced → Header.ofImage image = .unrecognised)) ∧
    ∀ b : Blueprint, b.Fits → b.assembled.IsImage b.image := by
  refine ⟨fun b image h => ⟨fun placed => ?_, fun unplaced => ?_⟩, fun b fits => fits.isImage⟩
  · rw [Header.ofImage, h.recognise?, h.recognise.1 placed, Option.getD_some]
  · rw [Header.ofImage, h.recognise?, h.recognise.2 unplaced, Option.getD_none]

/-- An executable with code and with zeroed memory. -/
def sample (cls : Class) (order : ByteOrder) (namesAddress : Word) : Blueprint where
  cls
  order
  type := .executable
  entry := 0x401000
  machine := 62
  version := 1
  flags := 0
  programOffset := 0
  sectionOffset := 0
  headerSize := 64
  programEntrySize := 56
  sectionEntrySize := 64
  before :=
    [⟨"", 0, .null, 0, 0, 0, 0, 0, 0, 0, 0⟩,
      ⟨".text", 0, .progBits, 6, 0x401000, 0xffffff00, 0x10, 0, 0, 16, 0⟩,
      ⟨".bss", 0, .noBits, 3, 0x402000, 0, 0x10, 0, 0, 16, 0⟩]
  names := ⟨".shstrtab", 0, .stringTable, 0, namesAddress, 0, 0, 0, 0, 1, 0⟩
  after := []

/-- Names whose addresses run past the last word keep a file from being recognised. -/
theorem unplaced_names_hide_file :
    ¬ ∀ (b : Blueprint) (image : Bytes), b.IsImage image → Header.ofImage image = b.header := by
  intro all
  have fits : (sample .bits64 .little 0xffffffffffffffff).Fits :=
    ⟨by decide +kernel, by decide +kernel, by decide +kernel, rfl, by decide +kernel⟩
  have read := all _ _ fits.isImage
  have hidden : Header.ofImage (sample .bits64 .little 0xffffffffffffffff).image =
      .unrecognised := by decide +kernel
  rw [hidden] at read
  exact absurd (congrArg Header.format read) (by decide)

theorem big_endian_sample_is_read :
    Header.ofImage (sample .bits32 .big 0).image =
      ⟨.elf, .executable, false, some 0x401000, [⟨".text", 0x401000, 0x10, 0xffffff00⟩]⟩ := by
  have fits : (sample .bits32 .big 0).Fits :=
    ⟨by decide +kernel, by decide +kernel, by decide +kernel, rfl, by decide +kernel⟩
  obtain ⟨read, assembled⟩ := images_are_read_as_described
  rw [(read _ _ (assembled _ fits)).1 (by unfold NamesPlaced; decide +kernel)]
  decide +kernel

end Blueprint

end Elf
end BasicBlocks.Image
