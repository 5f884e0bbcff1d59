import BasicBlocks.Proofs.Runs

/-!
# What a run makes of its tool's output

A run is told by what its tool leaves below its directory, and by nothing else: the directory is
empty when the tool starts, so a fact file that the tool does not leave is missing, and what it does
leave is reconciled as it is. Where earlier runs have left their files, whether runs share their
space, and what is removed afterwards only shows in the paths that faults name.
-/

namespace BasicBlocks

open Facts
open FileSystem (IsTree)
open Utf8 (Bytes)

theorem Layout.missing?_eq (l : Layout) (fs : FileSystem) :
    l.missing? fs =
      if (fs.read l.instructionFacts).toOption.isSome then
        if (fs.read l.blockFacts).toOption.isSome then none else some l.blockFacts
      else some l.instructionFacts := by
  simp only [missing?, List.find?_cons, List.find?_nil, FileSystem.isFile_eq]
  cases (fs.read l.instructionFacts).toOption.isSome <;>
    cases (fs.read l.blockFacts).toOption.isSome <;> rfl

/-- The reconciliation of the fact files of a layout, where they are found. The instructions' is
asked for first. -/
def Layout.reconcileFound (l : Layout) (header : Header) (scope : Scope)
    (instructions blocks : Option Bytes) : Except Fault Reconciled :=
  match instructions, blocks with
  | none, _ => .error (.missingFacts l.instructionFacts)
  | some _, none => .error (.missingFacts l.blockFacts)
  | some instructions, some blocks =>
    (reconcile ⟨l.instructionFacts, some instructions⟩ ⟨l.blockFacts, some blocks⟩
      (.ofHeader header) scope).result.mapError (·.fault)

/-- The path in another layout of what a path names in this one. -/
def Layout.counterpart (l l' : Layout) (path : String) : String :=
  if path = l.instructionFacts then l'.instructionFacts
  else if path = l.blockFacts then l'.blockFacts else path

/-- A fault with the fact files named as in another layout. -/
def Fault.relocate (l l' : Layout) : Fault → Fault
  | .missingFacts path => .missingFacts (l.counterpart l' path)
  | .malformedFact path line fault => .malformedFact (l.counterpart l' path) line fault
  | fault => fault

namespace Layout

variable {l l' : Layout}

theorem counterpart_instructionFacts : l.counterpart l' l.instructionFacts = l'.instructionFacts :=
  if_pos rfl

theorem counterpart_blockFacts (apart : l.instructionFacts ≠ l.blockFacts) :
    l.counterpart l' l.blockFacts = l'.blockFacts := by
  rw [counterpart, if_neg apart.symm, if_pos rfl]

/-- A fact file is read in the same way wherever it is found. -/
theorem read_relocate {α : Type} {path path' : String} (moved : l.counterpart l' path = path')
    (reader : RowReader α) (space : AddressSpace) (contents : Option Bytes) :
    ((⟨path', contents⟩ : FactFile).read reader space).2 =
      ((⟨path, contents⟩ : FactFile).read reader space).2.mapError (·.relocate l l') := by
  subst moved
  unfold FactFile.read
  cases contents with
  | none => rfl
  | some bytes =>
    dsimp only
    cases (Facts.read reader space bytes).result with
    | error fault => cases fault <;> rfl
    | ok table => rfl

theorem reconcile_relocate (apart : l.instructionFacts ≠ l.blockFacts) (space : AddressSpace)
    (scope : Scope) (instructions blocks : Option Bytes) :
    (reconcile ⟨l'.instructionFacts, instructions⟩ ⟨l'.blockFacts, blocks⟩ space
        scope).result.mapError (·.fault) =
      ((reconcile ⟨l.instructionFacts, instructions⟩ ⟨l.blockFacts, blocks⟩ space
        scope).result.mapError (·.fault)).mapError (·.relocate l l') := by
  rw [reconcile_result, reconcile_result, read_relocate counterpart_instructionFacts,
    read_relocate (counterpart_blockFacts apart)]
  cases ((⟨l.instructionFacts, instructions⟩ : FactFile).read instructionRow space).2 with
  | error fault => rfl
  | ok instructions =>
    cases ((⟨l.blockFacts, blocks⟩ : FactFile).read blockRow space).2 with
    | error fault => rfl
    | ok blocks =>
      dsimp only [Except.mapError]
      cases (populate blocks instructions).2 with
      | error gap => rfl
      | ok populated => rfl

end Layout

/-- What is found is reconciled in the same way wherever it is found. -/
theorem Layout.reconcileFound_relocate {l : Layout} (apart : l.instructionFacts ≠ l.blockFacts)
    (l' : Layout) (header : Header) (scope : Scope) (instructions blocks : Option Bytes) :
    l'.reconcileFound header scope instructions blocks =
      (l.reconcileFound header scope instructions blocks).mapError (·.relocate l l') := by
  cases instructions with
  | none => exact congrArg (Except.error ∘ Fault.missingFacts) counterpart_instructionFacts.symm
  | some instructions =>
    cases blocks with
    | none => exact congrArg (Except.error ∘ Fault.missingFacts) (counterpart_blockFacts apart).symm
    | some blocks => exact reconcile_relocate apart _ scope (some instructions) (some blocks)

/-- What a tool leaves below its directory, under the names that lead there from it. -/
abbrev Output := Location → Option Entry

namespace Output

/-- The contents of a file right below the directory. -/
def contents? (output : Output) (name : String) : Option Bytes :=
  match output [name] with
  | some (.file bytes _) => some bytes
  | _ => none

/-- A tool has left its output below the directory of a layout, and has changed nothing else. It
leaves files and directories, and no links. A file that it leaves right there has a path that is not
too long. -/
structure IsLeft (output : Output) (layout : Layout) (created after : FileSystem) : Prop where
  reached : ∀ rel, output rel ≠ none →
    ∃ place, created.find layout.binaryDir = .ok (place, .directory)
  inside : ∀ place, created.find layout.binaryDir = .ok (place, .directory) → ∀ rel, rel ≠ [] →
    after.get? (place ++ rel) = (output rel).or (created.get? (place ++ rel))
  outside : ∀ p, (∀ place, created.find layout.binaryDir = .ok (place, .directory) →
    ¬ Location.Below place p) → after.get? p = created.get? p
  plain : ∀ rel target, output rel ≠ some (.link target)
  short : ∀ name, output [name] ≠ none →
    (Path.join layout.binaryDir name).utf8ByteSize < FileSystem.pathBound

/-- Who puts one file into the directory leaves just that. -/
theorem isLeft_put {layout : Layout} {created : FileSystem} {place : Location} {name : String}
    (found : created.find layout.binaryDir = .ok (place, .directory)) {entry : Entry}
    (plain : ∀ target, entry ≠ .link target)
    (short : (Path.join layout.binaryDir name).utf8ByteSize < FileSystem.pathBound) :
    IsLeft (fun rel => if rel = [name] then some entry else none) layout created
      (created.put (place ++ [name]) entry) := by
  have get := fun p => FileSystem.get?_put created (place ++ [name]) p entry (by simp)
  refine ⟨fun _ _ => ⟨place, found⟩, fun place' found' rel _ => ?_, fun p outside => ?_,
    fun rel target => ?_, fun other there => ?_⟩
  · obtain rfl := FileSystem.find_unique found found'
    rw [get]
    by_cases same : rel = [name] <;> simp [same]
  · rw [get, if_neg]
    rintro rfl
    exact outside place found ⟨List.prefix_append place [name], by simp⟩
  · by_cases same : rel = [name] <;> simp [same, plain]
  · by_cases same : other = name
    · exact same ▸ short
    · simp [same] at there

namespace IsLeft

variable {output : Output} {layout : Layout} {created after : FileSystem} {name : String}
  {place : Location} (left : output.IsLeft layout created after)
  (absolute : Path.isAbsolute layout.binaryDir = true)
  (empty : ∀ place, created.find layout.binaryDir = .ok (place, .directory) →
    ∀ p, Location.Below place p → created.get? p = none)
  (isName : IsName name) (fits : name.utf8ByteSize ≤ FileSystem.nameLimit)
  (noNul : '\x00' ∉ name.toList)

include left absolute empty

/-- Nothing is changed where the directory was not found, and else the directory is found again. -/
theorem find_binaryDir_or :
    (∃ place, created.find layout.binaryDir = .ok (place, .directory) ∧
        after.find layout.binaryDir = .ok (place, .directory)) ∨
      ∀ place, after.find layout.binaryDir ≠ .ok (place, .directory) ∧
        created.find layout.binaryDir ≠ .ok (place, .directory) := by
  have begins : ∀ fs fs' : FileSystem, Path.origin fs.current layout.binaryDir =
      Path.origin fs'.current layout.binaryDir := fun fs fs' => by
    rw [Path.origin_of_isAbsolute absolute, Path.origin_of_isAbsolute absolute]
  by_cases reached : ∃ place, created.find layout.binaryDir = .ok (place, .directory)
  · obtain ⟨place, found⟩ := reached
    have kept : created.KeptIn after := fun p entry there => by
      rw [left.outside p fun place found' below => ?_, there]
      exact nomatch (empty place found' p below).symm.trans there
    exact Or.inl ⟨place, found, FileSystem.find_of_kept kept (begins _ _) found⟩
  · have same : ∀ p, after.get? p = created.get? p := fun p =>
      left.outside p fun place found => absurd ⟨place, found⟩ reached
    have kept : after.KeptIn created := fun p entry there => (same p).symm.trans there
    exact Or.inr fun place => ⟨fun found => reached ⟨place,
      FileSystem.find_of_kept kept (begins _ _) found⟩, fun found => reached ⟨place, found⟩⟩

include isName fits noNul

/-- What is read right below the directory is the output's. -/
theorem read_eq :
    (after.read (Path.join layout.binaryDir name)).toOption = output.contents? name := by
  have filled := Path.ne_empty_of_isAbsolute absolute
  rw [contents?, FileSystem.read]
  rcases left.find_binaryDir_or absolute empty with ⟨place, before, found⟩ | nowhere
  · have usable := (FileSystem.find_eq_ok_iff.mp before).1
    have lies : after.get? (place ++ [name]) = output [name] := by
      rw [left.inside place before [name] (by simp),
        empty place before _ ⟨List.prefix_append _ _, by simp⟩, Option.or_none]
    have noLink : after.NoLink (place ++ [name]) := fun target => lies ▸ left.plain [name] target
    have fits' : FileSystem.Fits name.toList := Or.inr (Or.inr (by simpa using fits))
    have found_iff : ∀ p entry, after.find (Path.join layout.binaryDir name) = .ok (p, entry) ↔ _ :=
      fun _ _ => FileSystem.find_join_iff isName filled found noLink
    cases out : output [name] with
    | none =>
      rcases held : after.find (Path.join layout.binaryDir name) with cause | ⟨p, entry⟩
      · rfl
      · obtain ⟨_, _, rfl, there⟩ := (found_iff p entry).mp held
        exact nomatch (lies.trans out).symm.trans there
    | some entry =>
      have held := (found_iff _ entry).mpr ⟨usable.join isName.relative noNul
        (left.short name (by simp [out])), fits', rfl, lies.trans out⟩
      rw [held]
      cases entry <;> rfl
  · cases out : output [name] with
    | none =>
      rcases held : after.find (Path.join layout.binaryDir name) with cause | ⟨p, entry⟩
      · rfl
      · obtain ⟨q, _, slot, _⟩ := FileSystem.exists_slot_of_find held
        obtain ⟨_, _, place, found, _⟩ := (FileSystem.slot_join_iff isName filled).mp slot
        exact absurd found (nowhere place).1
    | some entry =>
      obtain ⟨place, found⟩ := left.reached [name] (by simp [out])
      exact absurd found (nowhere place).2

end IsLeft

end Output

namespace Extractor

/-- A run whose tool ends well and has left this output. Its scratch space has been cleared as far
as it was not new. -/
structure Leaves (x : Extractor) (draw : Draw) (binary : String) (fs : FileSystem) (output : Output)
    (layout : Layout) : Prop where
  tree : fs.IsTree
  descends : Path.Descends x.tool.name
  cleared : RemovalsSucceed (x.scratch draw fs).events
  ran : ∃ scratch run, (x.scratch draw fs).result = .ok scratch ∧ scratch.layout = layout ∧
    (x.tool.run binary layout (x.scratch draw fs).files).result = .ok run ∧
    output.IsLeft layout (x.scratch draw fs).files
      (x.tool.run binary layout (x.scratch draw fs).files).files

/-- What a model says of the binary, without how it came about. -/
def reconciled (m : Model) : Reconciled := ⟨m.instructions, m.blocks⟩

/-- Once its tool has ended well, a run is told by the fact files that it finds. -/
theorem work_of_ran {x : Extractor} {now binary : String} {header : Header} {layout : Layout}
    {created : FileSystem} {run : ToolRun}
    (ran : (x.tool.run binary layout created).result = .ok run) :
    let after := (x.tool.run binary layout created).files
    (((x.work now binary header layout .init created).result.map (·.1)).mapError
        (·.fault)).map reconciled =
      layout.reconcileFound header x.config.scope (after.read layout.instructionFacts).toOption
        (after.read layout.blockFacts).toOption := by
  intro after
  have ends := x.work_ends now binary header layout created
  generalize x.work now binary header layout .init created = ending at ends ⊢
  have whenLocated : layout.missing? after = none →
      layout.reconcileFound header x.config.scope (after.read layout.instructionFacts).toOption
          (after.read layout.blockFacts).toOption =
        (x.reconciliation header layout after).result.mapError (·.fault) := by
    intro located
    obtain ⟨⟨instructions, foundInstructions⟩, ⟨blocks, foundBlocks⟩⟩ :=
      Layout.missing?_eq_none_iff.mp located
    rw [reconciliation, factFile_of_read foundInstructions, factFile_of_read foundBlocks,
      foundInstructions, foundBlocks]
    rfl
  cases ends with
  | toolFailed failed => exact nomatch ran.symm.trans failed
  | factsMissing _ absent =>
    have absent := (layout.missing?_eq after).symm.trans absent
    cases instructions : (after.read layout.instructionFacts).toOption with
    | none =>
      rw [instructions] at absent
      cases absent
      rfl
    | some _ =>
      cases blocks : (after.read layout.blockFacts).toOption with
      | none =>
        rw [instructions, blocks] at absent
        cases absent
        rfl
      | some _ =>
        rw [instructions, blocks] at absent
        cases absent
  | notReconciled _ located failed =>
    rw [whenLocated located, failed]
    rfl
  | done _ located reconciled _ =>
    rw [whenLocated located, reconciled]
    rfl

theorem extract_of_leaves {x : Extractor} {now binary : String} {draw : Draw} {header : Header}
    {fs : FileSystem} {output : Output} {layout : Layout} (known : header.isKnown = true)
    (leaves : x.Leaves draw binary fs output layout) :
    (x.extract now draw binary header fs).result.map reconciled =
      layout.reconcileFound header x.config.scope (output.contents? instructionFactsName)
        (output.contents? blockFactsName) := by
  obtain ⟨tree, descends, cleared, scratch, run, created, rfl, ran, left⟩ := leaves
  rcases made : x.scratch draw fs with ⟨files, events, result⟩
  rw [made] at created cleared ran left
  obtain rfl : result = .ok scratch := created
  obtain ⟨root, absolute, laidOut, empty⟩ :=
    RunScratch.emptied_of_create tree descends made cleared
  have absolute' : Path.isAbsolute scratch.layout.binaryDir = true := by
    rw [laidOut]
    exact Layout.isAbsolute_binaryDir _ absolute
  have readInstructions := left.read_eq absolute' empty
    (show IsName instructionFactsName by decide) (by decide) (by decide)
  have readBlocks := left.read_eq absolute' empty
    (show IsName blockFactsName by decide) (by decide) (by decide)
  have instructionsAt := Layout.instructionFacts_ofRoot root x.tool.name
  have blocksAt := Layout.blockFacts_ofRoot root x.tool.name
  rw [← laidOut] at instructionsAt blocksAt
  rw [← instructionsAt] at readInstructions
  rw [← blocksAt] at readBlocks
  rw [extract_eq, stages_of_created x now draw binary fs known made, ← readInstructions,
    ← readBlocks]
  exact work_of_ran ran

/-- A run is told by what its tool leaves, as if the fact files had been there to be reconciled.
Where another run's tool leaves the same, that run gives the same, or fails in the same way: at most
the path of a fact file is another. -/
theorem runs_agree_on_output {x : Extractor} {draw : Draw} {binary : String} {fs : FileSystem}
    {output : Output} {layout : Layout} (now : String) (header : Header)
    (known : header.isKnown = true)
    (leaves : x.Leaves draw binary fs output layout) :
    (x.extract now draw binary header fs).result.map reconciled =
        layout.reconcileFound header x.config.scope (output.contents? instructionFactsName)
          (output.contents? blockFactsName) ∧
      ∀ x' now' draw' binary' fs' layout', Leaves x' draw' binary' fs' output layout' →
        x'.config.scope = x.config.scope →
          (x'.extract now' draw' binary' header fs').result.map reconciled =
            ((x.extract now draw binary header fs).result.map reconciled).mapError
              (·.relocate layout layout') := by
  refine ⟨extract_of_leaves known leaves, fun x' now' draw' binary' fs' layout' leaves' scope => ?_⟩
  obtain ⟨scratch, run, created, rfl, _⟩ := leaves.ran
  obtain ⟨root, laidOut⟩ := RunScratch.layout_of_create created
  have apart := Layout.instructionFacts_ne_blockFacts root x.tool.name
  rw [← laidOut] at apart
  rw [extract_of_leaves known leaves, extract_of_leaves known leaves', scope,
    Layout.reconcileFound_relocate apart]

/-- A tool that leaves the instructions and forgets the blocks. -/
def forgetfulTool : Tool where
  name := "tool"
  displayName := "Tool"
  version := pure none
  run _ layout := do
    Task.change fun fs =>
      (fs.write layout.instructionFacts (Utf8.encode "16\t1\tret\n")).mapError
        (.toolNotStarted "tool" ·)
    return ⟨"", 0⟩

def forgetfulExtractor (isolate : Bool) : Extractor where
  tool := forgetfulTool
  config := { Config.default "/tmp" with scratchDir := "/s", isolateRuns := isolate }

/-- What an earlier run has left, blocks and all. -/
def staleFiles : FileSystem where
  current := []
  entries :=
    [(["s"], .directory), (["s", "tool"], .directory), (["s", "tool", "binary"], .directory),
      (["s", "tool", "binary", "block_information.csv"],
        .file (Utf8.encode "16\t1\t\n") false)]

def instructionsEntry : Entry := .file (Utf8.encode "16\t1\tret\n") false

def instructionsOnly : Output := fun rel =>
  if rel = [instructionFactsName] then some instructionsEntry else none

theorem forgetful_leaves {isolate : Bool} {fs : FileSystem} {layout : Layout}
    (owned : Option String) (place : Location) (tree : fs.IsTree)
    (cleared : RemovalsSucceed ((forgetfulExtractor isolate).scratch (.ofNat 0) fs).events)
    (made : ((forgetfulExtractor isolate).scratch (.ofNat 0) fs).result = .ok ⟨layout, owned, true⟩)
    (found : ((forgetfulExtractor isolate).scratch (.ofNat 0) fs).files.find layout.binaryDir =
      .ok (place, .directory))
    (finished : (forgetfulTool.run "/b" layout
      ((forgetfulExtractor isolate).scratch (.ofNat 0) fs).files).result = .ok ⟨"", 0⟩)
    (wrote : (forgetfulTool.run "/b" layout
      ((forgetfulExtractor isolate).scratch (.ofNat 0) fs).files).files =
        ((forgetfulExtractor isolate).scratch (.ofNat 0) fs).files.put
          (place ++ [instructionFactsName]) instructionsEntry)
    (short : (Path.join layout.binaryDir instructionFactsName).utf8ByteSize <
      FileSystem.pathBound) :
    (forgetfulExtractor isolate).Leaves (.ofNat 0) "/b" fs instructionsOnly layout := by
  have name : Path.Descends (forgetfulExtractor isolate).tool.name :=
    (⟨by decide, by decide⟩ : Path.Descends "tool")
  have noLink : ∀ target, instructionsEntry ≠ .link target := fun _ => nofun
  have left := Output.isLeft_put found noLink short
  rw [← wrote] at left
  exact ⟨tree, name, cleared, ⟨layout, owned, true⟩, ⟨"", 0⟩, made, rfl, finished, left⟩

theorem stale_blocks_are_missing :
    let header : Header := ⟨.pe, .executable, true, none, []⟩
    ((forgetfulExtractor false).extract "now" (.ofNat 0) "/b" header
        staleFiles).result.map reconciled =
        .error (.missingFacts "/s/tool/binary/block_information.csv") ∧
      ((forgetfulExtractor true).extract "later" (.ofNat 0) "/b" header
        ⟨[], []⟩).result.map reconciled =
        .error (.missingFacts "/s/run-000000/tool/binary/block_information.csv") := by
  have shared : (forgetfulExtractor false).Leaves (.ofNat 0) "/b" staleFiles instructionsOnly
      (.ofRoot "/s" "tool") :=
    forgetful_leaves none ["s", "tool", "binary"]
      (FileSystem.isTree_of_entries (by decide)) (by unfold RemovalsSucceed; decide +kernel)
      (by decide +kernel) (by decide +kernel) (by decide +kernel) (by decide +kernel)
      (by decide +kernel)
  have own : (forgetfulExtractor true).Leaves (.ofNat 0) "/b" ⟨[], []⟩ instructionsOnly
      (.ofRoot "/s/run-000000" "tool") :=
    forgetful_leaves (some "/s/run-000000") ["s", "run-000000", "tool", "binary"]
      (FileSystem.isTree_of_entries (by decide)) (by unfold RemovalsSucceed; decide +kernel)
      (by decide +kernel) (by decide +kernel) (by decide +kernel) (by decide +kernel)
      (by decide +kernel)
  obtain ⟨first, agree⟩ :=
    runs_agree_on_output "now" ⟨.pe, .executable, true, none, []⟩ rfl shared
  have second := agree _ "later" _ _ _ _ own rfl
  rw [first] at second
  exact ⟨first.trans (by decide +kernel), second.trans (by decide +kernel)⟩

end Extractor
end BasicBlocks
