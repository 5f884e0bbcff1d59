import BasicBlocks.Word

/-!
# Headers

What is known of a binary without disassembling it: its format, its kind, and which stretches of
its address space are backed by which bytes of the file.
-/

namespace BasicBlocks

inductive Format
  | elf
  | pe
  | machO
  | unknown
  deriving DecidableEq, Repr

inductive ObjectKind
  | sharedObject
  | executable
  | relocatable
  | core
  | unknown
  deriving DecidableEq, Repr

def Format.label : Format → String
  | .elf => "ELF"
  | .pe => "PE"
  | .machO => "MachO"
  | .unknown => "Unknown"

def ObjectKind.label : ObjectKind → String
  | .sharedObject => "Shared object file"
  | .executable => "Executable file"
  | .relocatable => "Relocatable file"
  | .core => "Core file"
  | .unknown => "Unknown"

/-- A loaded stretch of addresses with its place in the file. -/
structure Section where
  name : String
  address : Word
  size : Word
  offset : Word
  deriving DecidableEq, Repr

namespace Section

/-- No sum is formed, so a section may reach past the last word. -/
def covers (s : Section) (address : Word) : Bool :=
  s.address ≤ address && address - s.address < s.size

theorem covers_iff {s : Section} {a : Word} :
    s.covers a = true ↔ s.address.toNat ≤ a.toNat ∧ a.toNat < s.address.toNat + s.size.toNat := by
  simp only [covers, Bool.and_eq_true, decide_eq_true_eq, UInt64.le_iff_toNat_le,
    UInt64.lt_iff_toNat_lt]
  constructor
  · rintro ⟨le, lt⟩
    rw [UInt64.toNat_sub_of_le _ _ le] at lt
    omega
  · rintro ⟨le, lt⟩
    rw [UInt64.toNat_sub_of_le _ _ le]
    omega

end Section

structure Header where
  format : Format
  kind : ObjectKind
  is64 : Bool
  entry : Option Word
  sections : List Section
  deriving DecidableEq, Repr

namespace Header

/-- The header of bytes that no format recognises. -/
def unrecognised : Header := ⟨.unknown, .unknown, false, none, []⟩

def isKnown (h : Header) : Bool := h.format != .unknown

/-- The first section that covers the address decides, even where its offset does not fit a word. -/
def fileOffset? (h : Header) (address : Word) : Option Word :=
  (h.sections.find? (·.covers address)).bind fun s => Word.add? s.offset (address - s.address)

end Header

/-- How the addresses in fact tables become file offsets. Position-independent ELF objects are
disassembled at base zero, so their addresses already are offsets; a fixed-base ELF file is read
through its sections; all other formats pass through. -/
inductive AddressSpace
  | identity
  | offsetTranslated (header : Header)
  deriving DecidableEq, Repr

namespace AddressSpace

def ofHeader (h : Header) : AddressSpace :=
  match h.format, h.kind with
  | .elf, .sharedObject => .identity
  | .elf, _ => .offsetTranslated h
  | _, _ => .identity

def translate? : AddressSpace → Word → Option Word
  | .identity, address => some address
  | .offsetTranslated h, address => h.fileOffset? address

def isIdentity : AddressSpace → Bool
  | .identity => true
  | .offsetTranslated _ => false

def label : AddressSpace → String
  | .identity => "Identity"
  | .offsetTranslated _ => "OffsetTranslated"

end AddressSpace
end BasicBlocks
