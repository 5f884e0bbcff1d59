import BasicBlocks.Proofs.Isolation

/-!
# Scribes

Tools that read the binary and write what they make of it into their own directory. Each of them
keeps to the root of its run, and does below one root what it does below another.
-/

namespace BasicBlocks

open Process

/-- A tool that puts files into its directory, by what it reads in the binary. -/
structure Scribe where
  name : String
  displayName : String
  version : Option String
  /-- The files for a binary: what they are called and what is in them. -/
  files : Utf8.Bytes → List (String × Utf8.Bytes)

namespace Scribe

/-- Writes one file after the other, until one is refused. -/
def deposit (t : Scribe) (directory : String) : List (String × Utf8.Bytes) → Process Fault Unit
  | [] => return
  | (file, contents) :: rest => do
    (change fun fs => fs.write (Path.join directory file) contents).mapFault
      (.toolNotStarted t.name ·)
    t.deposit directory rest

def tool (t : Scribe) : SteppedTool :=
  .ofProcesses t.name t.displayName (return t.version) fun binary layout => do
    match ← ask (·.read binary) with
    | .error cause => fail (.toolNotStarted t.name cause)
    | .ok contents =>
      t.deposit layout.binaryDir (t.files contents)
      return ⟨"", 0⟩

/-- The files go into the tool's directory or below it. -/
def Descends (t : Scribe) : Prop := ∀ binary, ∀ f ∈ t.files binary, Path.Descends f.1

end Scribe

/-- A binary that is there from the start. -/
structure Site.Offers (s : Site) (binary : String) : Prop where
  absolute : Path.isAbsolute binary = true
  found : ∃ entry, s.files.find binary = .ok entry

theorem Site.Offers.read_eq {s : Site} {binary : String} (h : s.Offers binary) {fs : FileSystem}
    (holds : s.Holds fs) : fs.read binary = s.files.read binary := by
  obtain ⟨⟨place, entry⟩, found⟩ := h.found
  have found' : fs.find binary = .ok (place, entry) := by
    refine FileSystem.find_of_kept holds.kept ?_ found
    rw [Path.origin_of_isAbsolute h.absolute, Path.origin_of_isAbsolute h.absolute]
  rw [FileSystem.read, FileSystem.read, found, found']

namespace Scribe

variable {t : Scribe} {r : IsolatedRun} {s : Site} {name name' : String}
  {files : List (String × Utf8.Bytes)} (hosts : s.Hosts r)

include hosts

theorem confines_deposit (free : s.IsFree name) (descend : ∀ f ∈ files, Path.Descends f.1) :
    s.Confines name (t.deposit (r.layoutAt s name).binaryDir files) := by
  induction files with
  | nil => exact .ended _
  | cons f files ih =>
    obtain ⟨here, later⟩ := List.forall_mem_cons.mp descend
    have leads := (IsolatedRun.leads_binaryDir hosts free.isRunName).join
      free.isRunName.isName here
    refine .bind (.mapFault (.change fun fs made holds written => ?_) _) fun _ => ih later
    exact Site.worksIn_write hosts.isBase holds free leads written

theorem simulates_deposit (free : s.IsFree name) (free' : s.IsFree name')
    (descend : ∀ f ∈ files, Path.Descends f.1) :
    s.Simulates name name' (Agree (fun _ _ => True) (r.SameFault s name name'))
      (t.deposit (r.layoutAt s name).binaryDir files)
      (t.deposit (r.layoutAt s name').binaryDir files) := by
  induction files with
  | nil => exact .ended (.ok trivial)
  | cons f files ih =>
    obtain ⟨here, later⟩ := List.forall_mem_cons.mp descend
    have leads := (IsolatedRun.leads_binaryDir hosts free.isRunName).join
      free.isRunName.isName here
    have leads' := (IsolatedRun.leads_binaryDir hosts free'.isRunName).join
      free'.isRunName.isName here
    refine .bind (.mapFault (.change fun fs fs' mirrors => Site.agree_write hosts.isBase mirrors
      free free' leads leads' f.2) ?_) fun _ _ _ => ih later
    rintro cause _ rfl
    rfl

variable (tool : r.tool = t.tool) (descends : t.Descends)

include tool descends

theorem keepsToRoot (free : s.IsFree name) : r.KeepsToRoot s name := by
  constructor
  · rw [tool]
    refine .ask_bind fun fs _ => ?_
    split
    next => exact .ended _
    next => exact .bind (confines_deposit hosts free (descends _)) fun _ => .ended _
  · rw [tool]
    exact .ended _

theorem worksAlike (offers : s.Offers r.binary) (free : s.IsFree name) (free' : s.IsFree name') :
    r.WorksAlike s name name' := by
  constructor
  · rw [tool]
    refine .ask_bind fun fs fs' mirrors => ?_
    rw [offers.read_eq mirrors.left, offers.read_eq mirrors.right]
    cases s.files.read r.binary with
    | error cause => exact .ended (.error rfl)
    | ok contents =>
      exact (simulates_deposit hosts free free' (descends _)).bind fun _ _ _ => .ended (.ok trivial)
  · rw [tool]
    exact .ended trivial

end Scribe

end BasicBlocks
