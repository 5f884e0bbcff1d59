import BasicBlocks.Fault
import BasicBlocks.Facts.Record
import BasicBlocks.Header
import BasicBlocks.Table
import BasicBlocks.Text.Blank

/-!
# Fact tables

The two tables that a disassembler leaves behind: every instruction it decoded, and the extent of
every block. Both have one row policy. A row is short, and skipped, when it has fewer than three
fields or an empty first field; every other row has an address and a size, and one that is no
integer fails the whole table. The address of a row is translated last, and of several rows with
one translated address the last stays.
-/

namespace BasicBlocks

structure Instruction where
  text : String
  size : Word
  deriving DecidableEq, Repr

abbrev InstructionTable := Table Instruction

/-- Block sizes by start. -/
abbrev BlockTable := Table Word

namespace Facts

open Utf8 (Bytes)

/-- What a usable row says, before its address is translated. -/
abbrev RowReader (α : Type) := List String → Except FactFault (Word × α)

def field (fields : List String) (i : Nat) : String := fields.getD i ""

def readInteger (column : FactColumn) (text : String) : Except FactFault Word :=
  let chars := Text.trim text.toList
  match Numeral.readPrefixedWord? chars with
  | some value => .ok value
  | none => .error (.notAnInteger column (String.ofList chars))

/-- Mnemonic and operands with one space between, or the mnemonic alone. -/
def instructionText (mnemonic operands : String) : String :=
  if operands.isEmpty then mnemonic else mnemonic ++ " " ++ operands

def instructionRow : RowReader Instruction := fun fields => do
  let address ← readInteger .address (field fields 0)
  let size ← readInteger .size (field fields 1)
  if size = 0 then throw (.zeroSize address)
  return (address, ⟨instructionText (field fields 2) (field fields 3), size⟩)

def blockRow : RowReader Word := fun fields => do
  let address ← readInteger .address (field fields 0)
  let size ← readInteger .size (field fields 1)
  return (address, size)

/-- Why a table cannot be read. -/
inductive TableFault
  | malformed (line : Nat) (fault : FactFault)
  | unmapped (address : Word)
  deriving DecidableEq, Repr

def TableFault.at (path : String) : TableFault → Fault
  | .malformed line fault => .malformedFact path line fault
  | .unmapped address => .unmappedAddress address

inductive Verdict (α : Type)
  | skipped
  | entry (address : Word) (value : α)
  | rejected (fault : TableFault)

def isShort (fields : List String) : Bool := fields.length < 3 || (field fields 0).isEmpty

def judge {α : Type} (reader : RowReader α) (space : AddressSpace) (r : Record) : Verdict α :=
  match r.texts with
  | .error (number, valid) =>
    .rejected (.malformed r.place.line
      (.notText r.number r.place.line r.place.byte number valid))
  | .ok fields =>
    if isShort fields then .skipped
    else
      match reader fields with
      | .error fault => .rejected (.malformed r.place.line fault)
      | .ok (address, value) =>
        match space.translate? address with
        | none => .rejected (.unmapped address)
        | some translated => .entry translated value

/-- What was read as far as it could be, with the lines of the short rows on the way. -/
structure Reading (α : Type) where
  skipped : List Nat
  result : Except TableFault α

/-- The entries of the records, up to the first that is rejected. -/
def readRecords {α : Type} (reader : RowReader α) (space : AddressSpace) :
    List Record → Reading (List (Word × α))
  | [] => ⟨[], .ok []⟩
  | r :: rest =>
    match judge reader space r with
    | .skipped =>
      let later := readRecords reader space rest
      { later with skipped := r.place.line :: later.skipped }
    | .entry address value =>
      let later := readRecords reader space rest
      { later with result := later.result.map ((address, value) :: ·) }
    | .rejected fault => ⟨[], .error fault⟩

def read {α : Type} (reader : RowReader α) (space : AddressSpace) (bytes : Bytes) :
    Reading (Table α) :=
  let rows := readRecords reader space (records bytes)
  ⟨rows.skipped, rows.result.map Table.ofList⟩

def readInstructions (space : AddressSpace) (bytes : Bytes) : Reading InstructionTable :=
  read instructionRow space bytes

def readBlocks (space : AddressSpace) (bytes : Bytes) : Reading BlockTable :=
  read blockRow space bytes

end Facts
end BasicBlocks
