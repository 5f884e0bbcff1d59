import BasicBlocks.Header
import BasicBlocks.Image.Record
import BasicBlocks.Text.Numeral

/-!
# PE images

The headers behind the DOS stub, and the section table. Addresses are relative to the image base;
a section, or an entry point, whose sum with the base is no word is left out.
-/

namespace BasicBlocks.Image.Pe

open Utf8 (Bytes)

def signature : Bytes := [0x50, 0x45, 0, 0]

/-- Where the DOS header holds the offset of the signature. -/
def pointerOffset : Nat := 0x3c

/-- The DOS header and the stub behind it. -/
def stubEnd : Nat := 0x80

/-- The flag of dynamic libraries. -/
def library : Nat := 0x2000

def symbolSize : Nat := 18

structure FileHeader where
  sectionCount : Nat
  symbolOffset : Nat
  symbolCount : Nat
  optionalSize : Nat
  characteristics : Nat

def readFileHeader (bytes : Bytes) : Option (FileHeader × Bytes) :=
  match readNumbers .little [2, 2, 4, 4, 4, 2, 2] bytes with
  | some ([_, sectionCount, _, symbolOffset, symbolCount, optionalSize, characteristics], rest) =>
    some ({ sectionCount, symbolOffset, symbolCount, optionalSize, characteristics }, rest)
  | _ => none

/-- What the optional header says; without one, all is zero. -/
structure OptionalHeader where
  is64 : Bool
  entry : Nat
  base : Nat

/-- The widths of the magic number, linker version, sizes of code and data, entry, base of code. -/
def standardWidths : List Nat := [2, 1, 1, 4, 4, 4, 4, 4]

/-- After the base: alignments, versions, sizes, checksum, subsystem, flags; the sizes of stack and
heap; flags and the number of data directories. -/
def trailingWidths (wordWidth : Nat) : List Nat :=
  [4, 4, 2, 2, 2, 2, 2, 2, 4, 4, 4, 4, 2, 2, wordWidth, wordWidth, wordWidth, wordWidth, 4, 4]

def maxDirectories : Nat := 16

def directorySize : Nat := 8

def readOptionalHeader (bytes : Bytes) : Option OptionalHeader := do
  let (standard, rest) ← readNumbers .little standardWidths bytes
  let magic ← standard[0]?
  let entry ← standard[6]?
  let (is64, baseWidths) ←
    if magic = 0x10b then some (false, [4, 4])
    else if magic = 0x20b then some (true, [8])
    else none
  let (bases, rest) ← readNumbers .little baseWidths rest
  let base ← bases.getLast?
  let (trailing, rest) ← readNumbers .little (trailingWidths (if is64 then 8 else 4)) rest
  let directories ← trailing.getLast?
  if directories > maxDirectories then none
  else
    let _ ← takeBytes (directories * directorySize) rest
    return { is64, entry, base }

structure SectionHeader where
  rawName : Bytes
  virtualSize : Nat
  virtualAddress : Nat
  rawSize : Nat
  rawOffset : Nat

def sectionHeaderSize : Nat := 40

def readSectionHeader (bytes : Bytes) : Option (SectionHeader × Bytes) := do
  let (rawName, rest) ← takeBytes 8 bytes
  match readNumbers .little [4, 4, 4, 4, 4, 4, 2, 2, 4] rest with
  | some ([virtualSize, virtualAddress, rawSize, rawOffset, _, _, _, _, _], rest) =>
    some ({ rawName, virtualSize, virtualAddress, rawSize, rawOffset }, rest)
  | _ => none

def base64Digit? (b : UInt8) : Option Nat :=
  let n := b.toNat
  if 0x41 ≤ n && n ≤ 0x5a then some (n - 0x41)
  else if 0x61 ≤ n && n ≤ 0x7a then some (n - 0x61 + 26)
  else if 0x30 ≤ n && n ≤ 0x39 then some (n - 0x30 + 52)
  else if n = 0x2b then some 62
  else if n = 0x2f then some 63
  else none

/-- The most significant digit comes first; no digit at all is zero. -/
def readBase64 (bytes : Bytes) : Option Nat :=
  bytes.foldlM (fun acc b => (base64Digit? b).map (acc * 64 + ·)) 0

/-- A long name is kept elsewhere: its offset in the string table follows one slash in decimal, or
two in base 64. -/
inductive NameField
  | short (name : String)
  | long (offset : Nat)

def nameField (raw : Bytes) : Option NameField :=
  match raw with
  | 0x2f :: 0x2f :: digits => (readBase64 (upToZero digits)).map .long
  | 0x2f :: digits => do
    let text ← Utf8.decode? (upToZero digits)
    let offset ← Numeral.readWord? 10 text.toList
    return .long offset.toNat
  | raw => some (.short (nameOf raw))

/-- A text in the string table, up to a zero byte or the end of the image. -/
def readLongName (offset : Nat) (image : Bytes) : Option String :=
  if offset ≤ image.length then Utf8.decode? (upToZero (image.drop offset)) else none

def sectionName (raw : Bytes) (strings : Nat) (image : Bytes) : Option String := do
  match ← nameField raw with
  | .short name => return name
  | .long offset => readLongName (strings + offset) image

def SectionHeader.mapping? (s : SectionHeader) (base : Nat) (name : String) : Option Section := do
  let address ← Word.ofNat? (base + s.virtualAddress)
  return { name, address, size := UInt64.ofNat s.virtualSize, offset := UInt64.ofNat s.rawOffset }

/-- All names are read, also those of sections that are left out. -/
def readSections (h : FileHeader) (base : Nat) (table image : Bytes) : Option (List Section) :=
  if h.sectionCount > image.length / sectionHeaderSize then none
  else do
    let (headers, _) ← readMany readSectionHeader h.sectionCount table
    let strings := h.symbolOffset + symbolSize * h.symbolCount
    let named ← headers.mapM fun s => (sectionName s.rawName strings image).map fun n => (s, n)
    return named.filterMap fun (s, name) => s.mapping? base name

/-- The header of an image that begins with a DOS header. -/
def recognise (image : Bytes) : Option Header := do
  let pointer ← readNumberAt .little pointerOffset 4 image
  let (found, rest) ← takeBytes 4 (image.drop pointer)
  if found ≠ signature || !inside 0 stubEnd image then none
  else
    let (h, rest) ← readFileHeader rest
    let optional ← if h.optionalSize = 0 then some ⟨false, 0, 0⟩ else readOptionalHeader rest
    let sections ← readSections h optional.base (rest.drop h.optionalSize) image
    return {
      format := .pe
      kind := if h.characteristics / library % 2 = 1 then .sharedObject else .executable
      is64 := optional.is64
      entry := Word.ofNat? (optional.base + optional.entry)
      sections }

end BasicBlocks.Image.Pe
