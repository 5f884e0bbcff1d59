import Mathlib.Algebra.Order.BigOperators.Group.List
import Mathlib.Algebra.Order.Group.Nat
import BasicBlocks.Image.Recognition
import BasicBlocks.Proofs.NameFields

/-!
# Mach-O images of described files

A file is described by its numbers and its segments, each of which is described by its numbers and
its sections. Every image of a described file is read as the header that the description gives: the
sections with a size and a place in the file, segment by segment.
-/

namespace BasicBlocks.Image.MachO

open Utf8 (Bytes)

/-! ## Descriptions -/

inductive FileType
  | object
  | executable
  | core
  | library
  | bundle
  | other (code : Nat) (unassigned : code ∉ [1, 2, 4, 6, 8])

namespace FileType

def code : FileType → Nat
  | .object => 1
  | .executable => 2
  | .core => 4
  | .library => 6
  | .bundle => 8
  | .other code _ => code

def kind : FileType → ObjectKind
  | .object => .relocatable
  | .executable => .executable
  | .core => .core
  | .library | .bundle => .sharedObject
  | .other _ _ => .unknown

theorem kindOf_code (t : FileType) : kindOf t.code = t.kind := by
  cases t with
  | other code unassigned =>
    simp only [FileType.code, kind, kindOf]
    split <;> first | rfl | exact absurd (by decide) unassigned
  | _ => rfl

end FileType

namespace Layout

def magic (l : Layout) : Nat := if l.is64 then 0xfeedfacf else 0xfeedface

/-- The widths of what nothing is read of at the end of the file header. -/
def unreadWidths (l : Layout) : List Nat := if l.is64 then [4, 4] else [4]

/-- The kind of the commands for segments of the layout's width. -/
def segmentKind (l : Layout) : Nat := if l.is64 then segment64 else segment32

def segmentWidths (l : Layout) : List Nat :=
  [l.wordWidth, l.wordWidth, l.wordWidth, l.wordWidth, 4, 4, 4, 4]

def sectionSize (l : Layout) : Nat := if l.is64 then 80 else 68

def sectionWidths (l : Layout) : List Nat :=
  [l.wordWidth, l.wordWidth, 4, 4, 4, 4, 4, 4, 4] ++ if l.is64 then [4] else []

end Layout

/-- A section with everything that stands behind its segment's command. -/
structure Part where
  name : String
  /-- The field for the name of the segment that the section belongs to. -/
  segmentName : Bytes
  address : Word
  size : Word
  offset : Word
  /-- The alignment, the place and number of relocations, the flags, and reserved numbers. -/
  others : List Nat

namespace Part

def numbers (p : Part) : List Nat :=
  p.address.toNat :: p.size.toNat :: p.offset.toNat :: p.others

def bytes (l : Layout) (p : Part) : Bytes :=
  padded 16 p.name ++ (p.segmentName ++ writeRecord l.order l.sectionWidths p.numbers)

structure Fits (l : Layout) (p : Part) : Prop where
  name : FitsField 16 p.name
  segmentName : p.segmentName.length = 16
  numbers : Fit l.sectionWidths p.numbers

/-- Whether the section has a size and a place in the file. -/
def isMapped (p : Part) : Bool := p.size ≠ 0 && p.offset ≠ 0

def mapping (p : Part) : Section := ⟨p.name, p.address, p.size, p.offset⟩

end Part

/-- A segment with everything that its command says, and its sections. -/
structure SegmentPlan where
  /-- The field for the name. -/
  name : Bytes
  address : Nat
  memorySize : Nat
  fileOffset : Nat
  fileSize : Nat
  maximalProtection : Nat
  initialProtection : Nat
  flags : Nat
  parts : List Part

namespace SegmentPlan

/-- The size of the command together with its sections. -/
def size (l : Layout) (s : SegmentPlan) : Nat := l.segmentSize + s.parts.length * l.sectionSize

def start (l : Layout) (s : SegmentPlan) : List Nat := [l.segmentKind, s.size l]

def numbers (s : SegmentPlan) : List Nat :=
  [s.address, s.memorySize, s.fileOffset, s.fileSize, s.maximalProtection, s.initialProtection,
    s.parts.length, s.flags]

def command (l : Layout) (s : SegmentPlan) : Bytes :=
  writeRecord l.order [4, 4] (s.start l) ++
    (s.name ++ writeRecord l.order l.segmentWidths s.numbers)

def sectionTable (l : Layout) (s : SegmentPlan) : Bytes := s.parts.flatMap (·.bytes l)

def bytes (l : Layout) (s : SegmentPlan) : Bytes := s.command l ++ s.sectionTable l

structure Fits (l : Layout) (s : SegmentPlan) : Prop where
  start : Fit [4, 4] (s.start l)
  name : s.name.length = 16
  numbers : Fit l.segmentWidths s.numbers
  parts : ∀ p ∈ s.parts, p.Fits l

/-- A segment without bytes on disk may say that it has them anywhere. -/
def IsInside (s : SegmentPlan) (image : Bytes) : Prop :=
  s.fileSize = 0 ∨ s.fileOffset + s.fileSize ≤ image.length

end SegmentPlan

def commandBytes (l : Layout) (ss : List SegmentPlan) : Bytes := ss.flatMap (·.bytes l)

/-- A file all of whose load commands are for segments. -/
structure Blueprint where
  layout : Layout
  cpu : Nat
  cpuSubtype : Nat
  type : FileType
  /-- The flags, and in 64-bit files a reserved number. -/
  unread : List Nat
  segments : List SegmentPlan

namespace Blueprint

def commands (b : Blueprint) : Bytes := commandBytes b.layout b.segments

def fileHeaderWidths : List Nat := [4, 4, 4, 4, 4, 4]

def numbers (b : Blueprint) : List Nat :=
  [b.layout.magic, b.cpu, b.cpuSubtype, b.type.code, b.segments.length, b.commands.length]

def fileHeader (b : Blueprint) : Bytes :=
  writeRecord b.layout.order fileHeaderWidths b.numbers ++
    writeRecord b.layout.order b.layout.unreadWidths b.unread

structure Fits (b : Blueprint) : Prop where
  numbers : Fit fileHeaderWidths b.numbers
  unread : Fit b.layout.unreadWidths b.unread
  segments : ∀ s ∈ b.segments, s.Fits b.layout
  nonempty : b.segments ≠ []

/-- An image of the described file. Anything may come behind its load commands. -/
structure IsImage (b : Blueprint) (image : Bytes) : Prop where
  fits : b.Fits
  begins : b.fileHeader ++ b.commands <+: image
  inFile : ∀ s ∈ b.segments, s.IsInside image

/-- The header that the description gives. -/
def header (b : Blueprint) : Header where
  format := .machO
  kind := b.type.kind
  is64 := b.layout.is64
  entry := some 0
  sections := ((b.segments.flatMap (·.parts)).filter (·.isMapped)).map (·.mapping)

end Blueprint

/-! ## Sections -/

section Reading

variable {l : Layout}

theorem Layout.sum_sectionWidths (l : Layout) : 16 + (16 + l.sectionWidths.sum) = l.sectionSize := by
  rcases l with ⟨is64, order⟩
  cases is64 <;> rfl

theorem Layout.sum_segmentWidths (l : Layout) : 8 + (16 + l.segmentWidths.sum) = l.segmentSize := by
  rcases l with ⟨is64, order⟩
  cases is64 <;> rfl

theorem Part.Fits.length_bytes {p : Part} (fits : p.Fits l) :
    (p.bytes l).length = l.sectionSize := by
  rw [bytes, List.length_append, List.length_append, fits.name.length_padded, fits.segmentName,
    length_writeRecord l.order fits.numbers.length_eq, l.sum_sectionWidths]

theorem Part.Fits.readSection {p : Part} (fits : p.Fits l) (rest : Bytes) :
    MachO.readSection l (p.bytes l ++ rest) = some (p.mapping, rest) := by
  have numbers := readNumbers_writeRecord l.order fits.numbers rest
  have name := takeBytes_append_of_length fits.name.length_padded
  have segmentName := takeBytes_append_of_length fits.segmentName
  rw [Layout.sectionWidths] at numbers
  rw [MachO.readSection, bytes, List.append_assoc, List.append_assoc, Layout.sectionWidths, name]
  simp only [Option.bind_eq_bind, Option.bind_some, segmentName, numbers]
  simp only [Part.numbers, fits.name.nameOf_padded, UInt64.ofNat_toNat]
  rfl

theorem readSections_flatMap {ps : List Part} (fits : ∀ p ∈ ps, p.Fits l) (rest : Bytes) :
    readSections l ps.length (ps.flatMap (·.bytes l) ++ rest) = ps.map (·.mapping) := by
  induction ps with
  | nil => rfl
  | cons p ps ih =>
    obtain ⟨first, others⟩ := List.forall_mem_cons.mp fits
    rw [List.length_cons, readSections, List.flatMap_cons, List.append_assoc, first.readSection]
    exact congrArg (p.mapping :: ·) (ih others)

theorem Part.isMapped_mapping (p : Part) : MachO.isMapped p.mapping = p.isMapped := by
  have positive (w : Word) : decide (w > 0) = decide (w ≠ 0) := by
    simp [UInt64.pos_iff_ne_zero]
  rw [MachO.isMapped, mapping, positive, positive]
  rfl

/-! ## Segments -/

namespace SegmentPlan

variable {s : SegmentPlan}

theorem Fits.length_command (fits : s.Fits l) : (s.command l).length = l.segmentSize := by
  rw [command, List.length_append, List.length_append, fits.name,
    length_writeRecord l.order fits.start.length_eq,
    length_writeRecord l.order fits.numbers.length_eq, ← l.sum_segmentWidths]
  rfl

theorem Fits.length_bytes (fits : s.Fits l) : (s.bytes l).length = s.size l := by
  rw [bytes, List.length_append, fits.length_command, sectionTable,
    length_flatMap_eq_mul fun p hp => (fits.parts p hp).length_bytes, size]

/-- What is read of the segment's command if `rest` comes behind its sections. -/
def raw (l : Layout) (rest : Bytes) (s : SegmentPlan) : Segment :=
  { rawName := s.name, address := s.address, fileOffset := s.fileOffset, fileSize := s.fileSize,
    sectionCount := s.parts.length, tail := s.sectionTable l ++ rest }

theorem Fits.readSegment (fits : s.Fits l) (rest : Bytes) :
    MachO.readSegment l l.wordWidth (s.bytes l ++ rest) = some (s.raw l rest) := by
  have numbers := readNumbers_writeRecord l.order fits.numbers (s.sectionTable l ++ rest)
  have start := takeBytes_append_of_length (length_writeRecord l.order fits.start.length_eq)
  have name := takeBytes_append_of_length fits.name
  have behind : (s.bytes l ++ rest).drop l.segmentSize = s.sectionTable l ++ rest := by
    rw [bytes, List.append_assoc, List.drop_left' fits.length_command]
  have eight : [4, 4].sum = 8 := rfl
  rw [eight] at start
  rw [Layout.segmentWidths] at numbers
  rw [MachO.readSegment, behind, bytes, command, Layout.segmentWidths]
  simp only [List.append_assoc, Option.bind_eq_bind, Option.bind_some, start, name, numbers]
  rfl

theorem Fits.readStart (fits : s.Fits l) (rest : Bytes) :
    ∃ behind, readNumbers l.order [4, 4] (s.bytes l ++ rest) =
      some ([l.segmentKind, s.size l], behind) := by
  rw [bytes, command, List.append_assoc, List.append_assoc]
  exact ⟨_, readNumbers_writeRecord l.order fits.start _⟩

/-- One step over the load commands. -/
theorem Fits.readCommand {image : Bytes} (fits : s.Fits l) (inFile : s.IsInside image) (cpu : Nat)
    (rest : Bytes) (loaded : Loaded) :
    MachO.readCommand l cpu image (s.bytes l ++ rest) l.segmentKind loaded =
      some { loaded with segments := loaded.segments ++ [s.raw l rest] } := by
  have isSegment : (l.segmentKind = segment32 || l.segmentKind = segment64) = true := by
    rcases l with ⟨is64, order⟩
    cases is64 <;> rfl
  have width : (if l.segmentKind = segment64 then 8 else 4) = l.wordWidth := by
    rcases l with ⟨is64, order⟩
    cases is64 <;> rfl
  have inside : (s.raw l rest).inFile image = true := by
    rw [Segment.inFile, Bool.or_eq_true]
    exact inFile.imp (fun empty => decide_eq_true empty) (fun within => decide_eq_true within)
  rw [MachO.readCommand, if_pos isSegment, width, fits.readSegment]
  simp [inside]

/-- What is read of commands that stand one after the other. -/
def raws (l : Layout) (rest : Bytes) : List SegmentPlan → List Segment
  | [] => []
  | s :: ss => s.raw l (commandBytes l ss ++ rest) :: raws l rest ss

theorem readCommands_commandBytes {image : Bytes} {ss : List SegmentPlan}
    (fits : ∀ s ∈ ss, s.Fits l) (inFile : ∀ s ∈ ss, s.IsInside image) (cpu : Nat) (rest : Bytes)
    (loaded : Loaded) :
    readCommands l cpu image ss.length (commandBytes l ss ++ rest) loaded =
      some { loaded with segments := loaded.segments ++ raws l rest ss } := by
  induction ss generalizing loaded with
  | nil => simp [readCommands, raws]
  | cons s ss ih =>
    obtain ⟨first, others⟩ := List.forall_mem_cons.mp fits
    obtain ⟨here, later⟩ := List.forall_mem_cons.mp inFile
    have front : commandBytes l (s :: ss) ++ rest =
        s.bytes l ++ (commandBytes l ss ++ rest) := by
      rw [commandBytes, List.flatMap_cons, List.append_assoc]
      rfl
    have whole : inside 0 (s.size l) (s.bytes l ++ (commandBytes l ss ++ rest)) = true := by
      rw [inside, List.length_append, first.length_bytes]
      exact decide_eq_true (by omega)
    obtain ⟨behind, start⟩ := first.readStart (commandBytes l ss ++ rest)
    rw [List.length_cons, readCommands, front, start]
    simp only [whole, first.readCommand here, Option.bind_eq_bind, Option.bind_some,
      List.drop_left' first.length_bytes]
    rw [Bool.not_true, if_neg Bool.false_ne_true, ih others later, raws]
    simp

/-- The sections behind each command are found, and what lies behind them is not. -/
theorem readSections_raws {ss : List SegmentPlan} (fits : ∀ s ∈ ss, s.Fits l) (rest : Bytes) :
    ((raws l rest ss).flatMap fun s => readSections l s.sectionCount s.tail) =
      (ss.flatMap (·.parts)).map (·.mapping) := by
  induction ss with
  | nil => rfl
  | cons s ss ih =>
    obtain ⟨first, others⟩ := List.forall_mem_cons.mp fits
    have here := readSections_flatMap first.parts (commandBytes l ss ++ rest)
    rw [raws, List.flatMap_cons, ih others, List.flatMap_cons, List.map_append]
    exact congrArg (· ++ _) here

end SegmentPlan

/-! ## Images -/

/-- An image that begins with the magic number of a layout is read in that layout. -/
theorem recognise?_magic (l : Layout) {rest : Bytes}
    (long : Image.leastSize ≤ (l.order.bytes 4 l.magic ++ rest).length) :
    Image.recognise? (l.order.bytes 4 l.magic ++ rest) =
      recognise l (l.order.bytes 4 l.magic ++ rest) := by
  unfold Image.recognise?
  rw [if_neg (Nat.not_lt.mpr long)]
  rcases l with ⟨is64, order⟩
  cases is64 <;> cases order <;> rfl

end Reading

namespace Blueprint

variable {b : Blueprint} {image : Bytes}

theorem Fits.readFileHeader (fits : b.Fits) (rest : Bytes) :
    MachO.readFileHeader b.layout (b.fileHeader ++ rest) =
      some ⟨b.cpu, b.type.code, b.segments.length, b.commands.length⟩ := by
  have numbers := readNumbers_writeRecord b.layout.order fits.numbers
  rw [fileHeaderWidths] at numbers
  rw [MachO.readFileHeader, fileHeader, List.append_assoc, fileHeaderWidths, numbers]
  rfl

theorem Fits.length_fileHeader (fits : b.Fits) :
    b.fileHeader.length = b.layout.fileHeaderSize := by
  rw [fileHeader, List.length_append, length_writeRecord b.layout.order fits.numbers.length_eq,
    length_writeRecord b.layout.order fits.unread.length_eq]
  rcases b.layout with ⟨is64, order⟩
  cases is64 <;> rfl

/-- Each command takes at least the bytes of a segment without sections. -/
theorem Fits.le_length_commands (fits : b.Fits) : b.segments.length * 56 ≤ b.commands.length := by
  have each : ∀ n ∈ b.segments.map fun s => (s.bytes b.layout).length, 56 ≤ n := by
    intro n hn
    obtain ⟨s, hs, rfl⟩ := List.mem_map.mp hn
    have least : 56 ≤ b.layout.segmentSize := by
      rw [Layout.segmentSize]
      split <;> decide
    rw [(fits.segments s hs).length_bytes, SegmentPlan.size]
    omega
  have total := List.card_nsmul_le_sum _ 56 each
  rw [commands, commandBytes, List.length_flatMap]
  simpa using total

theorem IsImage.recognise (h : b.IsImage image) :
    MachO.recognise b.layout image = some b.header := by
  have one : 0 < b.segments.length := List.length_pos_iff.mpr h.fits.nonempty
  have least := h.fits.le_length_commands
  have within := h.begins.length_le
  rw [List.length_append] at within
  have long : inside 0 leastSize image = true := decide_eq_true (by rw [leastSize]; omega)
  have counts : ¬ (b.segments.length > b.commands.length / 8 || b.commands.length > image.length) := by
    simp only [Bool.or_eq_true, decide_eq_true_eq]
    omega
  obtain ⟨rest, split⟩ := h.begins
  rw [List.append_assoc] at split
  have header : MachO.readFileHeader b.layout image =
      some ⟨b.cpu, b.type.code, b.segments.length, b.commands.length⟩ :=
    split ▸ h.fits.readFileHeader (b.commands ++ rest)
  have behind : image.drop b.layout.fileHeaderSize = b.commands ++ rest := by
    rw [← split, List.drop_left' h.fits.length_fileHeader]
  have loaded := SegmentPlan.readCommands_commandBytes h.fits.segments h.inFile b.cpu rest Loaded.none
  have sections : MachO.sections b.layout
      { Loaded.none with segments := SegmentPlan.raws b.layout rest b.segments } =
        b.header.sections := by
    rw [MachO.sections, SegmentPlan.readSections_raws h.fits.segments, List.filter_map]
    have mapped : MachO.isMapped ∘ Part.mapping = Part.isMapped := funext Part.isMapped_mapping
    rw [mapped]
    rfl
  rw [MachO.recognise]
  simp only [long, header, behind, Option.bind_eq_bind, Option.bind_some]
  rw [Bool.not_true, if_neg Bool.false_ne_true, if_neg counts, commands, loaded]
  simp only [Loaded.none, List.nil_append, Option.bind_some, entryPoint?] at sections ⊢
  rw [sections, FileType.kindOf_code]
  rfl

theorem IsImage.recognise? (h : b.IsImage image) :
    Image.recognise? image = MachO.recognise b.layout image := by
  have long : Image.leastSize ≤ image.length := by
    have within := h.begins.length_le
    rw [List.length_append, h.fits.length_fileHeader, Layout.fileHeaderSize] at within
    rw [Image.leastSize]
    split at within <;> omega
  obtain ⟨rest, rfl⟩ := h.begins
  have number : b.fileHeader = b.layout.order.bytes 4 b.layout.magic ++
      (writeRecord b.layout.order fileHeaderWidths.tail b.numbers.tail ++
        writeRecord b.layout.order b.layout.unreadWidths b.unread) := by
    rw [← List.append_assoc]
    rfl
  rw [number] at long ⊢
  simp only [List.append_assoc] at long ⊢
  exact recognise?_magic b.layout long

/-- Enough bytes behind the commands are an image. -/
theorem Fits.exists_isImage (fits : b.Fits) : ∃ image, b.IsImage image := by
  let ends := b.segments.map fun s => s.fileOffset + s.fileSize
  refine ⟨b.fileHeader ++ b.commands ++ List.replicate ends.sum 0, fits,
    List.prefix_append _ _, fun s hs => Or.inr ?_⟩
  have within : s.fileOffset + s.fileSize ≤ ends.sum :=
    List.single_le_sum (fun _ _ => Nat.zero_le _) _ (List.mem_map_of_mem hs)
  rw [List.length_append, List.length_replicate]
  omega

/-- An image of a described file is read as the header that the description gives: exactly the
sections with a size and a place in the file, in the order of the segments and of the sections
behind each. Every description whose numbers fit has an image. -/
theorem segments_give_their_mapped_sections :
    (∀ (b : Blueprint) (image : Bytes), b.IsImage image → Header.ofImage image = b.header) ∧
    ∀ b : Blueprint, b.Fits → ∃ image, b.IsImage image := by
  refine ⟨fun b image h => ?_, fun b fits => fits.exists_isImage⟩
  rw [Header.ofImage, h.recognise?, h.recognise, Option.getD_some]

def samplePart (name : String) (address size offset : Word) : Part where
  name
  segmentName := List.replicate 16 0
  address
  size
  offset
  others := List.replicate 6 0

def sampleSegment (parts : List Part) : SegmentPlan where
  name := List.replicate 16 0
  address := 0x1000
  memorySize := 0x2000
  fileOffset := 0
  fileSize := 0x100
  maximalProtection := 7
  initialProtection := 5
  flags := 0
  parts

/-- A bundle with the most significant bytes first. -/
def sample : Blueprint where
  layout := ⟨false, .big⟩
  cpu := 18
  cpuSubtype := 0
  type := .bundle
  unread := [0]
  segments := [
    sampleSegment [samplePart "__text" 0x1100 0x10 0x200, samplePart "__bss" 0x2000 0x100 0],
    sampleSegment [],
    sampleSegment [samplePart "__mark" 0x1200 0 0x210, samplePart "sixteen bytes é" 0x1200 8 0x210]]

/-- What has no bytes in the file is left out of either segment. -/
theorem sections_without_bytes_are_left_out :
    sample.Fits ∧ ∃ image, sample.IsImage image ∧ Header.ofImage image =
      ⟨.machO, .sharedObject, false, some 0,
        [⟨"__text", 0x1100, 0x10, 0x200⟩, ⟨"sixteen bytes é", 0x1200, 8, 0x210⟩]⟩ := by
  have parts : ∀ p ∈ sample.segments.flatMap (·.parts), p.Fits sample.layout := by
    intro p hp
    exact ⟨⟨by revert p; decide +kernel, by revert p; decide +kernel⟩,
      by revert p; decide +kernel, by revert p; decide +kernel⟩
  have segments : ∀ s ∈ sample.segments, s.Fits sample.layout := by
    intro s hs
    exact ⟨by revert s; decide +kernel, by revert s; decide +kernel, by revert s; decide +kernel,
      fun p hp => parts p (List.mem_flatMap.mpr ⟨s, hs, hp⟩)⟩
  have fits : sample.Fits :=
    ⟨by decide +kernel, by decide +kernel, segments, List.cons_ne_nil _ _⟩
  obtain ⟨read, assembled⟩ := segments_give_their_mapped_sections
  obtain ⟨image, isImage⟩ := assembled sample fits
  exact ⟨fits, image, isImage, read sample image isImage⟩

end Blueprint

end BasicBlocks.Image.MachO
