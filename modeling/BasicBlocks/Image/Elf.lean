import BasicBlocks.Header
import BasicBlocks.Image.Record

/-!
# ELF images

The file header, and the section headers with their names. Only sections that are allocated, have
bytes in the file and are not empty become sections of the header. The size of a section header
is fixed by the class, whatever the file states.
-/

namespace BasicBlocks.Image.Elf

open Utf8 (Bytes)

def magic : Bytes := [0x7f, 0x45, 0x4c, 0x46]

inductive Class
  | bits32
  | bits64
  deriving DecidableEq, Repr

namespace Class

def ofByte? : UInt8 → Option Class
  | 1 => some .bits32
  | 2 => some .bits64
  | _ => none

/-- The width of addresses, sizes and offsets. -/
def wordWidth : Class → Nat
  | .bits32 => 4
  | .bits64 => 8

def programHeaderSize : Class → Nat
  | .bits32 => 32
  | .bits64 => 56

def sectionHeaderSize : Class → Nat
  | .bits32 => 40
  | .bits64 => 64

/-- The file header after the identification: type, machine, version, entry, offsets of the two
header tables, flags, own size, and entry size and count of both tables, index of the names. -/
def fileHeaderWidths (c : Class) : List Nat :=
  let w := c.wordWidth
  [2, 2, 4, w, w, w, 4, 2, 2, 2, 2, 2, 2]

/-- Name, type, flags, address, offset, size, link, info, alignment, entry size. -/
def sectionHeaderWidths (c : Class) : List Nat :=
  let w := c.wordWidth
  [4, 4, w, w, w, w, 4, 4, w, w]

end Class

def byteOrderOf? : UInt8 → Option ByteOrder
  | 1 => some .little
  | 2 => some .big
  | _ => none

structure FileHeader where
  type : Nat
  entry : Nat
  programOffset : Nat
  sectionOffset : Nat
  programCount : Nat
  sectionCount : Nat
  nameSection : Nat

structure SectionHeader where
  name : Nat
  type : Nat
  flags : Nat
  address : Nat
  offset : Nat
  size : Nat
  link : Nat

def readFileHeader (c : Class) (o : ByteOrder) (bytes : Bytes) : Option FileHeader :=
  match readNumbers o c.fileHeaderWidths bytes with
  | some ([type, _, _, entry, programOffset, sectionOffset, _, _, _, programCount, _, sectionCount,
      nameSection], _) =>
    some { type, entry, programOffset, sectionOffset, programCount, sectionCount, nameSection }
  | _ => none

def readSectionHeader (c : Class) (o : ByteOrder) (bytes : Bytes) :
    Option (SectionHeader × Bytes) :=
  match readNumbers o c.sectionHeaderWidths bytes with
  | some ([name, type, flags, address, offset, size, link, _, _, _], rest) =>
    some ({ name, type, flags, address, offset, size, link }, rest)
  | _ => none

/-- The first section header gives the count where the file header has none; it is read even then,
and kept. -/
def readSectionHeaders (c : Class) (o : ByteOrder) (h : FileHeader) (image : Bytes) :
    Option (List SectionHeader) :=
  if h.sectionOffset = 0 then some []
  else do
    let (first, rest) ← readSectionHeader c o (image.drop h.sectionOffset)
    let count := if h.sectionCount = 0 then first.size else h.sectionCount
    if count > image.length / c.sectionHeaderSize then none
    else
      let (later, _) ← readMany (readSectionHeader c o) (count - 1) rest
      return first :: later

/-- A section without bytes in the file. -/
def noBits : Nat := 8

/-- The flag of sections that occupy memory. -/
def allocated : Nat := 2

/-- The index that refers to the first section's link. -/
def extendedIndex : Nat := 0xffff

namespace SectionHeader

def hasFileBytes (s : SectionHeader) : Bool := s.type ≠ noBits && s.size ≠ 0

def isMapped (s : SectionHeader) : Bool :=
  s.flags / allocated % 2 = 1 && s.type ≠ noBits && s.size > 0

end SectionHeader

/-- The name table's bytes. Its file range has to lie inside the image in every case, its address
range within the words where it has bytes in the file, and all of it has to be text. -/
def readNames (h : FileHeader) (sections : List SectionHeader) (image : Bytes) : Option Bytes :=
  let index :=
    if h.nameSection = extendedIndex then (sections.head?.map (·.link)).getD 0 else h.nameSection
  match sections[index]? with
  | none => some []
  | some s =>
    if !inside s.offset s.size image then none
    else if s.hasFileBytes && Word.bound ≤ s.address + s.size then none
    else
      let names := (image.drop s.offset).take s.size
      if (Utf8.decode? names).isSome then some names else none

/-- The name from an offset to the next zero byte; an offset outside the table, or inside a
character, names nothing. -/
def nameAt (names : Bytes) (offset : Nat) : String := nameOf (names.drop offset)

def SectionHeader.mapping (s : SectionHeader) (names : Bytes) : Section :=
  { name := nameAt names s.name, address := UInt64.ofNat s.address, size := UInt64.ofNat s.size,
    offset := UInt64.ofNat s.offset }

def kindOf : Nat → ObjectKind
  | 1 => .relocatable
  | 2 => .executable
  | 3 => .sharedObject
  | 4 => .core
  | _ => .unknown

/-- The program headers are not used, but have to be there. -/
def programHeadersInside (c : Class) (h : FileHeader) (image : Bytes) : Bool :=
  h.programCount = 0 || inside h.programOffset (h.programCount * c.programHeaderSize) image

/-- The header of an image that begins with the magic bytes. -/
def recognise (image : Bytes) : Option Header := do
  let c ← (image[4]?).bind Class.ofByte?
  let o ← (image[5]?).bind byteOrderOf?
  let h ← readFileHeader c o (image.drop 16)
  if !programHeadersInside c h image then none
  else
    let sections ← readSectionHeaders c o h image
    let names ← readNames h sections image
    return {
      format := .elf
      kind := kindOf h.type
      is64 := c = .bits64
      entry := some (UInt64.ofNat h.entry)
      sections := (sections.filter (·.isMapped)).map (·.mapping names) }

end BasicBlocks.Image.Elf
