import BasicBlocks.Header
import BasicBlocks.Image.Record

/-!
# Mach-O images

Load commands, each with its own size, and the sections that follow a segment command. Only
sections with a size and a place in the file become sections of the header. The entry point is
found through the first main command, else through the first initial thread state.
-/

namespace BasicBlocks.Image.MachO

open Utf8 (Bytes)

structure Layout where
  is64 : Bool
  order : ByteOrder
  deriving DecidableEq, Repr

def layout? : Bytes → Option Layout
  | 0xfe :: 0xed :: 0xfa :: 0xce :: _ => some ⟨false, .big⟩
  | 0xce :: 0xfa :: 0xed :: 0xfe :: _ => some ⟨false, .little⟩
  | 0xfe :: 0xed :: 0xfa :: 0xcf :: _ => some ⟨true, .big⟩
  | 0xcf :: 0xfa :: 0xed :: 0xfe :: _ => some ⟨true, .little⟩
  | _ => none

namespace Layout

def fileHeaderSize (l : Layout) : Nat := if l.is64 then 32 else 28

def wordWidth (l : Layout) : Nat := if l.is64 then 8 else 4

def segmentSize (l : Layout) : Nat := if l.is64 then 72 else 56

end Layout

/-- The least size of a file that has a header of either width. -/
def leastSize : Nat := 32

structure FileHeader where
  cpu : Nat
  fileType : Nat
  commandCount : Nat
  commandSize : Nat

def readFileHeader (l : Layout) (image : Bytes) : Option FileHeader :=
  match readNumbers l.order [4, 4, 4, 4, 4, 4] image with
  | some ([_, cpu, _, fileType, commandCount, commandSize], _) =>
    some { cpu, fileType, commandCount, commandSize }
  | _ => none

def segment32 : Nat := 0x1

def segment64 : Nat := 0x19

def initialThread : Nat := 0x5

def mainEntry : Nat := 0x80000028

structure Segment where
  rawName : Bytes
  address : Nat
  fileOffset : Nat
  fileSize : Nat
  sectionCount : Nat
  /-- What follows the command. -/
  tail : Bytes

/-- A segment command, whose words have the given width, from its start. -/
def readSegment (l : Layout) (wordWidth : Nat) (command : Bytes) : Option Segment := do
  let (_, rest) ← takeBytes 8 command
  let (rawName, rest) ← takeBytes 16 rest
  match readNumbers l.order [wordWidth, wordWidth, wordWidth, wordWidth, 4, 4, 4, 4] rest with
  | some ([address, _, fileOffset, fileSize, _, _, sectionCount, _], _) =>
    some { rawName, address, fileOffset, fileSize, sectionCount,
           tail := command.drop l.segmentSize }
  | _ => none

def Segment.inFile (s : Segment) (image : Bytes) : Bool :=
  s.fileSize = 0 || inside s.fileOffset s.fileSize image

/-- Whether this is the segment that main commands count from. -/
def Segment.isText (s : Segment) : Bool := s.rawName.take 7 = [0x5f, 0x5f, 0x54, 0x45, 0x58, 0x54, 0]

def maxThreadWords : Nat := 70

/-- The thread state of a thread command; words that it does not give are zero. -/
def readThreadState (l : Layout) (command : Bytes) : Option (List Nat) := do
  let count ← readNumberAt l.order 12 4 command
  if count > maxThreadWords then none
  else
    let (words, _) ← readNumbers l.order (List.replicate count 4) (command.drop 16)
    return words ++ List.replicate (maxThreadWords - count) 0

/-- Where a processor's thread state keeps the instruction pointer: the index of its low word, and
whether the word after it is its high word. -/
def instructionPointerIndex? (cpu : Nat) : Option (Nat × Bool) :=
  if cpu = 0x1000007 then some (32, true)
  else if cpu = 7 then some (10, false)
  else if cpu = 12 then some (15, false)
  else if cpu = 0x100000c || cpu = 0x200000c then some (64, true)
  else if cpu = 18 then some (0, false)
  else none

def instructionPointer? (cpu : Nat) (state : List Nat) : Option Nat := do
  let (index, wide) ← instructionPointerIndex? cpu
  let low ← state[index]?
  if wide then
    let high ← state[index + 1]?
    return low + high * 0x100000000
  else return low

/-- What the load commands have said so far. -/
structure Loaded where
  segments : List Segment
  mainOffset : Option Nat
  threadEntry : Option Nat

def Loaded.none : Loaded := ⟨[], .none, .none⟩

def readCommand (l : Layout) (cpu : Nat) (image command : Bytes) (kind : Nat) (loaded : Loaded) :
    Option Loaded :=
  if kind = segment32 || kind = segment64 then do
    let s ← readSegment l (if kind = segment64 then 8 else 4) command
    if s.inFile image then return { loaded with segments := loaded.segments ++ [s] } else none
  else if kind = mainEntry then do
    let (numbers, _) ← readNumbers l.order [4, 4, 8, 8] command
    let offset ← numbers[2]?
    return { loaded with mainOffset := some (loaded.mainOffset.getD offset) }
  else if kind = initialThread then do
    let state ← readThreadState l command
    match loaded.threadEntry with
    | some _ => return loaded
    | .none => do
      let entry ← instructionPointer? cpu state
      return { loaded with threadEntry := some entry }
  else some loaded

/-- The load commands from where `rest` begins. -/
def readCommands (l : Layout) (cpu : Nat) (image : Bytes) :
    Nat → Bytes → Loaded → Option Loaded
  | 0, _, loaded => some loaded
  | n + 1, rest, loaded => do
    match readNumbers l.order [4, 4] rest with
    | some ([kind, size], _) =>
      if !inside 0 size rest then .none
      else
        let loaded ← readCommand l cpu image rest kind loaded
        readCommands l cpu image n (rest.drop size) loaded
    | _ => .none

/-- Offsets count from where the text segment's file range is loaded; the sums wrap. -/
def entryPoint? (loaded : Loaded) : Option Word :=
  match loaded.mainOffset, loaded.threadEntry with
  | some offset, _ => do
    let text ← loaded.segments.find? (·.isText)
    return UInt64.ofNat text.address - UInt64.ofNat text.fileOffset + UInt64.ofNat offset
  | .none, some address => some (UInt64.ofNat address)
  | .none, .none => some 0

def readSection (l : Layout) (bytes : Bytes) : Option (Section × Bytes) := do
  let (rawName, rest) ← takeBytes 16 bytes
  let (_, rest) ← takeBytes 16 rest
  let w := l.wordWidth
  let widths := [w, w, 4, 4, 4, 4, 4, 4, 4] ++ (if l.is64 then [4] else [])
  match readNumbers l.order widths rest with
  | some (address :: size :: offset :: _, rest) =>
    some ({ name := nameOf rawName, address := UInt64.ofNat address, size := UInt64.ofNat size,
            offset := UInt64.ofNat offset }, rest)
  | _ => none

/-- Sections until their number is reached or the image ends. -/
def readSections (l : Layout) : Nat → Bytes → List Section
  | 0, _ => []
  | n + 1, bytes =>
    match readSection l bytes with
    | .none => []
    | some (s, rest) => s :: readSections l n rest

def isMapped (s : Section) : Bool := s.size > 0 && s.offset > 0

def sections (l : Layout) (loaded : Loaded) : List Section :=
  (loaded.segments.flatMap fun s => readSections l s.sectionCount s.tail).filter isMapped

def kindOf : Nat → ObjectKind
  | 1 => .relocatable
  | 2 => .executable
  | 4 => .core
  | 6 => .sharedObject
  | 8 => .sharedObject
  | _ => .unknown

/-- The header of an image that begins with the magic bytes of a layout. -/
def recognise (l : Layout) (image : Bytes) : Option Header := do
  if !inside 0 leastSize image then .none
  else
    let h ← readFileHeader l image
    if h.commandCount > h.commandSize / 8 || h.commandSize > image.length then .none
    else
      let loaded ←
        readCommands l h.cpu image h.commandCount (image.drop l.fileHeaderSize) Loaded.none
      let entry ← entryPoint? loaded
      return {
        format := .machO
        kind := kindOf h.fileType
        is64 := l.is64
        entry := some entry
        sections := sections l loaded }

end BasicBlocks.Image.MachO
