import BasicBlocks.CommandLine.Program
import BasicBlocks.Proofs.Bystanders

/-!
# Deliveries

A command whose result is a document delivers all of it, once, or nothing: its output is the
document or empty, and a file that it is to write is written last. A command that fails has not
touched that file, unless it lies in the scratch space of the run.
-/

namespace BasicBlocks

open Utf8 (Bytes)

/-! ## What is written is read -/

namespace FileSystem

variable {fs written : FileSystem} {path : String} {contents : Bytes}

theorem namingPieces_eq (filled : path ≠ "") (noSlash : path.toList.getLast? ≠ some '/') :
    namingPieces path = Path.pieces path := by
  obtain ⟨cs, c, ends⟩ : ∃ cs c, path.toList = cs ++ [c] :=
    (List.eq_nil_or_concat' path.toList).resolve_left (by simpa using filled)
  have different : c ≠ '/' := by
    rintro rfl
    exact noSlash (by simp [ends])
  obtain ⟨front, piece, whole, more⟩ := Split.exists_pieces_concat_eq different cs
  rw [namingPieces, Path.pieces, ends, whole]
  simp [more]

/-- The way to the file that is written leads there still: it takes directories and links only. -/
theorem read_of_write (h : fs.write path contents = .ok written) :
    written.read path = .ok contents := by
  obtain ⟨place, executable, usable, walked, noSlash, noDirectory, rfl⟩ := exists_of_write h
  have notRoot : place ≠ [] := ne_nil_of_not_directory noDirectory
  have get := fun p => get?_put fs place p (.file contents executable) notRoot
  rw [namingPieces_eq usable.filled noSlash] at walked
  obtain ⟨n, le, walks⟩ := walk_eq_ok_iff.mp walked
  have noLink := walks.noLink (Split.pieces_ne_nil '/' _)
  have walks' : (fs.put place (.file contents executable)).Walks n (Path.origin fs.current path)
      (Path.pieces path) place := by
    refine walks.of_ways (fun p way => ?_) ?_
    · rw [get, if_neg]
      rintro rfl
      exact way.elim noDirectory (· noLink)
    · simp [NoLink, get]
  have found : (fs.put place (.file contents executable)).find path =
      .ok (place, .file contents executable) :=
    find_eq_ok_iff.mpr ⟨usable, walk_eq_ok_iff.mpr ⟨n, le, walks'⟩, by simp [get]⟩
  rw [read, found]
  rfl

end FileSystem

/-! ## Commands that deliver a document -/

/-- The action delivers a document, and this is where to. -/
inductive Action.Delivers : Action → Option String → Prop
  | extract (o : ExtractOptions) : Delivers (.extract o) o.out
  | reconcile (o : ReconcileOptions) : Delivers (.reconcile o) o.out

namespace Program

variable {env : Environment} {fs after : FileSystem} {a : Action} {out : Option String}
  {document : Json}

def extractor (env : Environment) (c : Config) : Extractor :=
  ⟨.disassembler env.host c.launcher c.timeoutSeconds, c⟩

/-- The run that an action comes to, and the path of its binary, once its configuration is read. -/
inductive Starts (env : Environment) (fs : FileSystem) : Action → Extractor → String → Prop
  | extract {o : ExtractOptions} {c : Config} {binary : String}
      (resolved : resolve fs o.binary = .ok binary) (loaded : config env fs o.config = .ok c) :
      Starts env fs (.extract o) (extractor env (c.withOverrides o.overrides)) binary

/-- The document that an action gives, and the files it leaves, where all that it reads can be read
and the reconciliation or the run succeeds. -/
inductive Gives (env : Environment) (fs : FileSystem) : Action → Json → FileSystem → Prop
  | reconciled {o : ReconcileOptions} {h : Header} {instructions blocks : String} {r : Reconciled}
      (read : headerOr fs o.binary = .ok h)
      (instructionsAt : resolve fs o.instructions = .ok instructions)
      (blocksAt : resolve fs o.blocks = .ok blocks)
      (succeeds : (BasicBlocks.reconcile (Extractor.factFile fs instructions)
        (Extractor.factFile fs blocks) (.ofHeader h) o.scope).result = .ok r) :
      Gives env fs (.reconcile o) r.toJson fs
  | extracted {o : ExtractOptions} {x : Extractor} {binary : String} {h : Header}
      {sha256 : String} {m : Model} (starts : Starts env fs (.extract o) x binary)
      (present : fs.isFile binary = true) (read : header fs binary = .ok h)
      (hashed : fs.digest binary = .ok sha256)
      (succeeds : (x.extract env.now env.draw binary h fs).result = .ok m) :
      Gives env fs (.extract o) (Report.toJson ⟨binary, sha256, m⟩)
        (x.extract env.now env.draw binary h fs).files

/-- Why an action gives no document, by the files it leaves: what it reads or reconciles fails, and
the files are as they were; or its run fails. -/
inductive Fails (env : Environment) (fs : FileSystem) (a : Action) : FileSystem → Prop
  | before : Fails env fs a fs
  | running {x : Extractor} {binary : String} (h : Header) (starts : Starts env fs a x binary) :
      Fails env fs a (x.extract env.now env.draw binary h fs).files

theorem deliver_none (document : Json) (fs : FileSystem) :
    deliver document none fs = ⟨fs, [], .ok ⟨document.pretty ++ "\n", none⟩⟩ := rfl

theorem deliver_some (document : Json) (path : String) (fs : FileSystem) :
    deliver document (some path) fs =
      match fs.write path (Utf8.encode document.pretty) with
      | .ok written => ⟨written, [], .ok ⟨"", some ("Wrote " ++ path ++ "\n")⟩⟩
      | .error cause => ⟨fs, [], .error (.output path cause)⟩ := by
  simp only [deliver, bind, Task.mapFault, Task.change]
  cases fs.write path (Utf8.encode document.pretty) with
  | ok written => rfl
  | error cause => rfl

theorem reconcileCommand_eq (o : ReconcileOptions) (fs : FileSystem) :
    reconcileCommand o fs =
      match headerOr fs o.binary with
      | .error fault => ⟨fs, [], .error fault⟩
      | .ok h =>
        match resolve fs o.instructions, resolve fs o.blocks with
        | .error fault, _ => ⟨fs, [], .error fault⟩
        | .ok _, .error fault => ⟨fs, [], .error fault⟩
        | .ok instructions, .ok blocks =>
          let reconciled := BasicBlocks.reconcile (Extractor.factFile fs instructions)
            (Extractor.factFile fs blocks) (.ofHeader h) o.scope
          match reconciled.result with
          | .error failure => ⟨fs, reconciled.events,
              .error (.reconciliation instructions blocks failure.fault)⟩
          | .ok r => ⟨(deliver r.toJson o.out fs).files,
              reconciled.events ++ (deliver r.toJson o.out fs).events,
              (deliver r.toJson o.out fs).result⟩ := by
  rw [reconcileCommand]
  cases read : headerOr fs o.binary with
  | error fault => exact Task.tell_bind_of_error read _
  | ok h =>
    rw [Task.tell_bind_of_ok read]
    cases instructionsAt : resolve fs o.instructions with
    | error fault => exact Task.tell_bind_of_error instructionsAt _
    | ok instructions =>
      rw [Task.tell_bind_of_ok instructionsAt]
      cases blocksAt : resolve fs o.blocks with
      | error fault => exact Task.tell_bind_of_error blocksAt _
      | ok blocks =>
        rw [Task.tell_bind_of_ok blocksAt]
        simp only [bind, Task.ask, Task.mapFault, Task.ofTraced]
        generalize BasicBlocks.reconcile _ _ _ _ = reconciled
        obtain ⟨events, failure | r⟩ := reconciled
        · rfl
        · rfl

theorem extractCommand_eq (env : Environment) (o : ExtractOptions) (fs : FileSystem) :
    extractCommand env o fs =
      match resolve fs o.binary with
      | .error fault => ⟨fs, [], .error fault⟩
      | .ok path =>
        if fs.isFile path then
          match config env fs o.config with
          | .error fault => ⟨fs, [], .error fault⟩
          | .ok c =>
            match header fs path, fs.digest path with
            | .error fault, _ => ⟨fs, [], .error (.header fault)⟩
            | .ok _, .error fault => ⟨fs, [], .error (.digest fault)⟩
            | .ok h, .ok sha256 =>
              let ran :=
                (extractor env (c.withOverrides o.overrides)).extract env.now env.draw path h fs
              match ran.result with
              | .error fault => ⟨ran.files, ran.events, .error (.extraction path fault)⟩
              | .ok m =>
                let delivered := deliver (Report.toJson ⟨path, sha256, m⟩) o.out ran.files
                ⟨delivered.files, ran.events ++ delivered.events, delivered.result⟩
        else ⟨fs, [], .error (.binaryMissing path)⟩ := by
  rw [extractCommand]
  cases resolved : resolve fs o.binary with
  | error fault => exact Task.tell_bind_of_error resolved _
  | ok path =>
    rw [Task.tell_bind_of_ok resolved, Task.ask_bind]
    dsimp only
    split
    next present =>
      cases loaded : config env fs o.config with
      | error fault => exact Task.tell_bind_of_error loaded _
      | ok c =>
        rw [Task.tell_bind_of_ok loaded]
        have reading : ∀ result, header fs path = result →
            (header fs path).mapError CommandFault.header = result.mapError .header :=
          fun _ h => congrArg _ h
        have hashing : ∀ result, fs.digest path = result →
            (fs.digest path).mapError CommandFault.digest = result.mapError .digest :=
          fun _ h => congrArg _ h
        cases read : header fs path with
        | error fault => exact Task.tell_bind_of_error (reading _ read) _
        | ok h =>
          rw [Task.tell_bind_of_ok (reading _ read)]
          cases hashed : fs.digest path with
          | error fault => exact Task.tell_bind_of_error (hashing _ hashed) _
          | ok sha256 =>
            rw [Task.tell_bind_of_ok (hashing _ hashed)]
            simp only [bind, Task.mapFault]
            rw [extractor]
            cases (Extractor.extract _ env.now env.draw path h fs).result with
            | error fault => rfl
            | ok m => rfl
    next => rfl

/-- An action that gives a document goes on to deliver it. -/
theorem perform_of_gives (delivers : a.Delivers out) (gives : Gives env fs a document after) :
    ∃ events, perform env a fs =
      ⟨(deliver document out after).files, events, (deliver document out after).result⟩ := by
  cases gives with
  | reconciled read instructionsAt blocksAt succeeds =>
    cases delivers
    rw [perform, reconcileCommand_eq, read, instructionsAt, blocksAt]
    dsimp only
    rw [succeeds]
    exact ⟨_, rfl⟩
  | extracted starts present read hashed succeeds =>
    cases delivers
    cases starts with
    | extract resolved loaded =>
      rw [perform, extractCommand_eq, resolved]
      dsimp only
      rw [if_pos present, loaded, read, hashed]
      dsimp only
      rw [succeeds]
      exact ⟨_, rfl⟩

/-- An action either gives a document, or fails with nothing delivered. -/
theorem gives_or_fails (env : Environment) (fs : FileSystem) (delivers : a.Delivers out) :
    (∃ document after, Gives env fs a document after) ∨
      ∃ after events fault, Fails env fs a after ∧
        perform env a fs = ⟨after, events, .error fault⟩ := by
  cases delivers with
  | reconcile o =>
    rw [perform, reconcileCommand_eq]
    cases read : headerOr fs o.binary with
    | error fault => exact Or.inr ⟨fs, _, fault, .before, rfl⟩
    | ok h =>
      dsimp only
      split
      next => exact Or.inr ⟨fs, _, _, .before, rfl⟩
      next => exact Or.inr ⟨fs, _, _, .before, rfl⟩
      next instructions blocks instructionsAt blocksAt =>
        split
        next => exact Or.inr ⟨fs, _, _, .before, rfl⟩
        next r succeeds =>
          exact Or.inl ⟨_, _, .reconciled read instructionsAt blocksAt succeeds⟩
  | extract o =>
    rw [perform, extractCommand_eq]
    cases resolved : resolve fs o.binary with
    | error fault => exact Or.inr ⟨fs, _, fault, .before, rfl⟩
    | ok path =>
      dsimp only
      split
      next present =>
        cases loaded : config env fs o.config with
        | error fault => exact Or.inr ⟨fs, _, fault, .before, rfl⟩
        | ok c =>
          have starts := Starts.extract resolved loaded
          dsimp only
          split
          next => exact Or.inr ⟨fs, _, _, .before, rfl⟩
          next => exact Or.inr ⟨fs, _, _, .before, rfl⟩
          next h sha256 read hashed =>
            split
            next => exact Or.inr ⟨_, _, _, .running h starts, rfl⟩
            next m succeeds =>
              exact Or.inl ⟨_, _, .extracted starts present read hashed succeeds⟩
      next => exact Or.inr ⟨fs, _, _, .before, rfl⟩

theorem descends_toolName : Path.Descends Disassembler.toolName := ⟨by decide, by decide⟩

/-- What a failed action leaves where its tool does nothing. -/
theorem Fails.leaves {p : Location} (fails : Fails env fs a after) (tree : fs.IsTree)
    (spares : ∀ x binary, Starts env fs a x binary → x.Spares env.draw binary fs p) :
    after.get? p = fs.get? p ∨
      ∃ x binary, Starts env fs a x binary ∧ x.LeavesAt env.draw fs p (after.get? p) := by
  cases fails with
  | before => exact Or.inl rfl
  | @running x binary h starts =>
    refine Or.inr ⟨x, binary, starts, ?_⟩
    have descends : Path.Descends x.tool.name := by
      cases starts
      exact descends_toolName
    exact Extractor.extract_leavesAt env.now h tree descends (spares x binary starts)

/-! ## All or nothing -/

/-- All of a document, once: printed, with a line's end after it, or written to a file. -/
inductive IsDelivered (document : Json) (after : FileSystem) :
    Option String → String → FileSystem → Prop
  | printed : IsDelivered document after none (document.pretty ++ "\n") after
  | written {path : String} {files : FileSystem}
      (wrote : after.write path (Utf8.encode document.pretty) = .ok files)
      (holds : files.read path = .ok (Utf8.encode document.pretty)) :
      IsDelivered document after (some path) "" files

theorem IsDelivered.to_file {path output : String} {files : FileSystem}
    (h : IsDelivered document after (some path) output files) :
    output = "" ∧ files.read path = .ok (Utf8.encode document.pretty) := by
  cases h with
  | written wrote holds => exact ⟨rfl, holds⟩

/-- The document can be put where it is to go. -/
def HasRoom (after : FileSystem) (document : Json) (out : Option String) : Prop :=
  ∀ path ∈ out, ∃ files, after.write path (Utf8.encode document.pretty) = .ok files

/-- What a failed command leaves where it should have written its document, and wherever else: the
document could not be put at its path, or the command spares what its tool does. -/
def LeavesPath (env : Environment) (fs : FileSystem) (a : Action) (path : String)
    (left : FileSystem) : Prop :=
  (∃ document after cause, Gives env fs a document after ∧ left = after ∧
    after.write path (Utf8.encode document.pretty) = .error cause) ∨
  ∀ p, (∀ x binary, Starts env fs a x binary → x.Spares env.draw binary fs p) →
    left.get? p = fs.get? p ∨
      ∃ x binary, Starts env fs a x binary ∧ x.LeavesAt env.draw fs p (left.get? p)

/-- How a command ends that delivers a document. -/
structure AllOrNothing (env : Environment) (fs : FileSystem) (a : Action) (out : Option String)
    (outcome : Outcome) : Prop where
  zero_iff : outcome.code = 0 ↔
    ∃ document after, Gives env fs a document after ∧ HasRoom after document out
  delivered : outcome.code = 0 → ∃ document after, Gives env fs a document after ∧
    IsDelivered document after out outcome.output outcome.files
  silent : outcome.code ≠ 0 → outcome.output = ""
  spared : outcome.code ≠ 0 → ∀ path ∈ out, LeavesPath env fs a path outcome.files

theorem AllOrNothing.of_one {outcome : Outcome} (one : outcome.code = 1)
    (succeeds : (∃ document after, Gives env fs a document after ∧ HasRoom after document out) →
      outcome.code = 0)
    (silent : outcome.output = "") (spared : ∀ path ∈ out, LeavesPath env fs a path outcome.files) :
    AllOrNothing env fs a out outcome := by
  have notZero : outcome.code ≠ 0 := by
    rw [one]
    exact Nat.one_ne_zero
  exact ⟨⟨fun zero => absurd zero notZero, succeeds⟩, fun zero => absurd zero notZero,
    fun _ => silent, fun _ => spared⟩

section

variable {arguments : List String} {i : Invocation}
  (options : Arguments.read arguments = .options i) (delivers : i.action.Delivers out)

include options

theorem run_of_ok {files : FileSystem} {events : List Event} {d : Delivery}
    (ended : perform env i.action fs = ⟨files, events, .ok d⟩) :
    run env arguments fs =
      ⟨0, d.output, messages env i fs events ++ (d.note.map .text).toList, files⟩ := by
  simp only [run, options, ended]

theorem run_of_error {files : FileSystem} {events : List Event} {fault : CommandFault}
    (ended : perform env i.action fs = ⟨files, events, .error fault⟩) :
    run env arguments fs =
      ⟨1, "", messages env i fs events ++ [.text fault.render], files⟩ := by
  simp only [run, options, ended]

include delivers

/-- Where the document can be put, the command succeeds. -/
theorem run_of_gives (gives : Gives env fs i.action document after)
    (room : HasRoom after document out) :
    (run env arguments fs).code = 0 ∧ IsDelivered document after out
      (run env arguments fs).output (run env arguments fs).files := by
  obtain ⟨events, ended⟩ := perform_of_gives delivers gives
  cases out with
  | none =>
    rw [deliver_none] at ended
    rw [run_of_ok options ended]
    exact ⟨rfl, .printed⟩
  | some path =>
    obtain ⟨files, wrote⟩ := room path rfl
    rw [deliver_some, wrote] at ended
    rw [run_of_ok options ended]
    exact ⟨rfl, .written wrote (FileSystem.read_of_write wrote)⟩

/-- Where it cannot be put, nothing is delivered. -/
theorem run_of_no_room {path : String} {cause : IoFault}
    (gives : Gives env fs i.action document after) (toFile : out = some path)
    (noRoom : after.write path (Utf8.encode document.pretty) = .error cause) :
    (run env arguments fs).code = 1 ∧ (run env arguments fs).output = "" ∧
      (run env arguments fs).files = after := by
  obtain ⟨events, ended⟩ := perform_of_gives delivers gives
  rw [toFile, deliver_some, noRoom] at ended
  rw [run_of_error options ended]
  exact ⟨rfl, rfl, rfl⟩

theorem allOrNothing_run (tree : fs.IsTree) :
    AllOrNothing env fs i.action out (run env arguments fs) := by
  have succeeds : (∃ document after, Gives env fs i.action document after ∧
      HasRoom after document out) → (run env arguments fs).code = 0 := fun ⟨_, _, gives, room⟩ =>
    (run_of_gives options delivers gives room).1
  rcases gives_or_fails env fs delivers with
    ⟨document, after, gives⟩ | ⟨after, events, fault, fails, ended⟩
  · by_cases room : HasRoom after document out
    · obtain ⟨zero, delivered⟩ := run_of_gives options delivers gives room
      exact ⟨iff_of_true zero ⟨document, after, gives, room⟩,
        fun _ => ⟨document, after, gives, delivered⟩, fun h => absurd zero h,
        fun h => absurd zero h⟩
    · obtain ⟨path, toFile, refused⟩ : ∃ path ∈ out, ∀ files,
          after.write path (Utf8.encode document.pretty) ≠ .ok files := by
        simpa [HasRoom] using room
      cases noRoom : after.write path (Utf8.encode document.pretty) with
      | ok files => exact absurd noRoom (refused files)
      | error cause =>
        obtain ⟨one, silent, files⟩ := run_of_no_room options delivers gives toFile noRoom
        refine .of_one one succeeds silent fun path' toFile' =>
          Or.inl ⟨document, after, cause, gives, files, ?_⟩
        obtain rfl : path = path' := Option.some.inj (toFile.symm.trans toFile')
        exact noRoom
  · have ran := run_of_error options ended
    refine .of_one (by rw [ran]) succeeds (by rw [ran]) fun path _ => Or.inr fun p spares => ?_
    rw [ran]
    exact fails.leaves tree spares

end

/-- A command whose result is a document delivers all of it or nothing. Arguments that cannot be
used, or that ask for a notice, change no file. -/
theorem output_is_all_or_nothing (env : Environment) (arguments : List String) (fs : FileSystem)
    (tree : fs.IsTree) :
    (Arguments.read arguments = .refused → (run env arguments fs).code = 2 ∧
      (run env arguments fs).output = "" ∧ (run env arguments fs).files = fs) ∧
    (∀ n, Arguments.read arguments = .notice n → (run env arguments fs).code = 0 ∧
      (run env arguments fs).output = notice n ∧ (run env arguments fs).files = fs) ∧
    ∀ i out, Arguments.read arguments = .options i → i.action.Delivers out →
      AllOrNothing env fs i.action out (run env arguments fs) :=
  ⟨fun refused => by simp [run, refused], fun n noticed => by simp [run, noticed],
    fun _ _ options delivers => allOrNothing_run options delivers tree⟩

/-- A host that starts nothing. -/
def idleHost : Host := ⟨"0:0", fun _ _ => .error .notFound⟩

def idleEnvironment : Environment := ⟨none, none, none, "now", .ofNat 0, idleHost⟩

/-- The facts of a block with one instruction, and what an earlier command has reported. -/
def factFiles : FileSystem where
  current := []
  entries :=
    [(["i"], .file (Utf8.encode "16\t1\tret\n") false),
      (["b"], .file (Utf8.encode "16\t1\tret\n") false), (["r"], .file (Utf8.encode "old") true)]

def reconcileArguments (blocks : String) : List String :=
  ["reconcile", "--instructions", "i", "--blocks", blocks, "--out", "r"]

theorem report_is_replaced_or_kept :
    let replaced := run idleEnvironment (reconcileArguments "b") factFiles
    let kept := run idleEnvironment (reconcileArguments "absent") factFiles
    factFiles.IsTree ∧
      (replaced.code = 0 ∧ replaced.output = "" ∧
        ∃ r : Reconciled, replaced.files.read "r" = .ok (Utf8.encode r.toJson.pretty)) ∧
      kept.code = 1 ∧ kept.output = "" ∧
        kept.files.get? ["r"] = some (.file (Utf8.encode "old") true) := by
  have tree : factFiles.IsTree := FileSystem.isTree_of_entries (by decide)
  have settled := fun blocks read =>
    (output_is_all_or_nothing idleEnvironment (reconcileArguments blocks) factFiles tree).2.2
      ⟨false, .reconcile ⟨"i", blocks, none, .cfg, some "r"⟩⟩ _ read (.reconcile _)
  have whole := settled "b" (by decide +kernel)
  have nothing := settled "absent" (by decide +kernel)
  have zero : (run idleEnvironment (reconcileArguments "b") factFiles).code = 0 := by
    decide +kernel
  have one : (run idleEnvironment (reconcileArguments "absent") factFiles).code = 1 := by
    decide +kernel
  have notZero : (run idleEnvironment (reconcileArguments "absent") factFiles).code ≠ 0 := by
    rw [one]
    exact Nat.one_ne_zero
  refine ⟨tree, ?_, one, nothing.silent notZero, ?_⟩
  · obtain ⟨document, after, gives, delivered⟩ := whole.delivered zero
    obtain ⟨silent, holds⟩ := delivered.to_file
    cases gives with
    | reconciled => exact ⟨zero, silent, _, holds⟩
  · have old : factFiles.get? ["r"] = some (.file (Utf8.encode "old") true) := rfl
    rcases nothing.spared notZero "r" rfl with ⟨_, _, _, gives, files, _⟩ | spared
    · cases gives with
      | reconciled => exact (congrArg (·.get? ["r"]) files).trans old
    · rcases spared ["r"] (fun _ _ starts => nomatch starts) with same | ⟨_, _, starts, _⟩
      · exact same.trans old
      · exact nomatch starts

/-! ## Reports in scratch space -/

/-- The header of an executable without sections. -/
def bareExecutable : Bytes :=
  [0x7f, 0x45, 0x4c, 0x46, 2, 1, 1] ++ List.replicate 9 0 ++ [2, 0, 0x3e, 0, 1]
    ++ List.replicate 31 0 ++ [64] ++ List.replicate 11 0

/-- A binary, a configuration whose runs share their space, and reports in that space and apart
from it. -/
def reportedFiles : FileSystem where
  current := []
  entries :=
    [(["a.out"], .file bareExecutable true),
      (["c.json"], .file (Utf8.encode
        "\x7b\"isolate_runs\": false, \"scratch_dir\": \"s\"\x7d") false),
      (["s"], .directory), (["s", "ddisasm"], .directory), (["s", "ddisasm", "binary"], .directory),
      (["s", "ddisasm", "binary", "report.json"], .file (Utf8.encode "old") false),
      (["precious"], .directory), (["precious", "report.json"], .file (Utf8.encode "old") false)]

/-- A host whose programs put a link in the place of the tool's directory, and fail. -/
def linkingHost : Host where
  owner := "0:0"
  start _ fs := .ok fun _ =>
    ⟨(fs.prune ["s", "ddisasm", "binary"]).put ["s", "ddisasm", "binary"] (.link "../../precious"),
      [], some (some 1, 0)⟩

theorem get?_linkingHost {command : Command} {fs : FileSystem} {activity : Option Nat → Activity}
    (started : linkingHost.start command fs = .ok activity) (limit : Option Nat) {p : Location}
    (apart : ¬ ["s", "ddisasm", "binary"] <+: p) :
    (activity limit).files.get? p = fs.get? p := by
  cases started
  have other : p ≠ ["s", "ddisasm", "binary"] := by
    rintro rfl
    exact apart (List.prefix_refl _)
  rw [FileSystem.get?_put _ _ _ _ (by simp), if_neg other,
    FileSystem.get?_prune_of_not_isPrefix apart]

/-- With these arguments the tool fails on the files above, and the command with it. -/
structure FailsAtTool (env : Environment) (arguments : List String) (fault : Fault) : Prop where
  fails : ∃ o, Arguments.read arguments = .options ⟨false, .extract o⟩ ∧
    (extractCommand env o reportedFiles).result = .error (.extraction "/a.out" fault)
  code : (run env arguments reportedFiles).code = 1

/-- A report that was in shared space is gone, and a directory is made where a report should be,
although the command fails and its tool has not even been started. A report that lies elsewhere is
gone where the tool, which does not touch it, has led the clean-up there by a link. -/
theorem failed_run_touches_report :
    let absent := Fault.toolNotStarted Disassembler.toolName .notFound
    let sharing := ["extract", "--binary", "a.out", "--config", "c.json",
      "--out", "s/ddisasm/binary/report.json"]
    let making := ["extract", "--binary", "a.out", "--scratch", "new", "--out", "new"]
    let linking := ["extract", "--binary", "a.out", "--config", "c.json",
      "--out", "precious/report.json"]
    let linked := { idleEnvironment with host := linkingHost }
    (∀ command fs, idleEnvironment.host.start command fs = .error .notFound) ∧
      (FailsAtTool idleEnvironment sharing absent ∧
        reportedFiles.get? ["s", "ddisasm", "binary", "report.json"] =
          some (.file (Utf8.encode "old") false) ∧
        (run idleEnvironment sharing reportedFiles).files.get?
          ["s", "ddisasm", "binary", "report.json"] = none) ∧
      (FailsAtTool idleEnvironment making absent ∧ reportedFiles.get? ["new"] = none ∧
        (run idleEnvironment making reportedFiles).files.get? ["new"] = some .directory) ∧
      (∀ command fs activity limit, linkingHost.start command fs = .ok activity →
        (activity limit).files.get? ["precious", "report.json"] =
          fs.get? ["precious", "report.json"]) ∧
      FailsAtTool linked linking (.toolFailed Disassembler.toolName (some 1) "") ∧
        reportedFiles.get? ["precious", "report.json"] = some (.file (Utf8.encode "old") false) ∧
        (run linked linking reportedFiles).files.get? ["precious", "report.json"] = none := by
  intro absent sharing making linking linked
  have failsSharing : FailsAtTool idleEnvironment sharing absent :=
    ⟨⟨⟨"a.out", some "c.json", ⟨none, none, false⟩, some "s/ddisasm/binary/report.json"⟩,
      by decide +kernel, by decide +kernel⟩, by decide +kernel⟩
  have failsMaking : FailsAtTool idleEnvironment making absent :=
    ⟨⟨⟨"a.out", none, ⟨some "new", none, false⟩, some "new"⟩,
      by decide +kernel, by decide +kernel⟩, by decide +kernel⟩
  have failsLinking : FailsAtTool linked linking
      (.toolFailed Disassembler.toolName (some 1) "") :=
    ⟨⟨⟨"a.out", some "c.json", ⟨none, none, false⟩, some "precious/report.json"⟩,
      by decide +kernel, by decide +kernel⟩, by decide +kernel⟩
  have untouched : ¬ ["s", "ddisasm", "binary"] <+: ["precious", "report.json"] := by decide
  refine ⟨fun _ _ => rfl, ⟨failsSharing, ?_, ?_⟩, ⟨failsMaking, ?_, ?_⟩,
    fun _ _ _ limit started => get?_linkingHost started limit untouched, failsLinking, ?_, ?_⟩ <;>
    decide +kernel

end Program
end BasicBlocks
