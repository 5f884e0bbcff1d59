import BasicBlocks.Proofs.Clearing
import BasicBlocks.Proofs.Descents

/-!
# Sites

A directory beneath which runs make roots of their own, each under a name that is free there. As
long as all that was there at first is still there and no link lies inside of a root, a path that
leads down from the root stays inside of it, and so does what is done there.
-/

namespace BasicBlocks

open FileSystem (IsTree ChangesWithin Adds Clears KeptIn NoLink OnWay)
open BasicBlocks.Path (Leads)

/-- Files, and a place among them where runs are to make their roots. -/
structure Site where
  files : FileSystem
  tree : files.IsTree
  place : Location

namespace Site

variable (s : Site)

def root (name : String) : Location := s.place ++ [name]

/-- A name that may be drawn: there is nothing of that name yet. -/
structure IsFree (name : String) : Prop where
  isRunName : IsRunName name
  vacant : s.files.get? (s.root name) = none

/-- A path by which the place is found. -/
structure IsBase (base : String) : Prop where
  absolute : Path.isAbsolute base = true
  found : s.files.find base = .ok (s.place, .directory)

/-- All that was there is still there, and no link lies inside of the root of this name. -/
structure IsOpen (name : String) (fs : FileSystem) : Prop where
  kept : s.files.KeptIn fs
  plain : ∀ p, s.root name <+: p → fs.NoLink p

variable {s} {fs made : FileSystem} {base name path : String} {rest : List (List Char)}
  {p : Location}

theorem root_ne_nil (name : String) (rel : Location) : s.root name ++ rel ≠ [] := by
  simp [root]

theorem step_root (drawn : IsRunName name) : Location.step s.place name.toList = s.root name :=
  drawn.isName.step s.place

theorem IsFree.get?_eq_none (free : s.IsFree name) (inside : s.root name <+: p) :
    s.files.get? p = none := by
  by_cases same : p = s.root name
  · rw [same, free.vacant]
  · exact s.tree.vacant_below (by rw [free.vacant]; exact fun h => nomatch h) ⟨inside, same⟩

/-- What was there does not lie inside of a root. -/
theorem IsFree.not_isPrefix (free : s.IsFree name) {entry : Entry}
    (h : s.files.get? p = some entry) : ¬ s.root name <+: p := fun inside =>
  nomatch h.symm.trans (free.get?_eq_none inside)

theorem isOpen_files (free : s.IsFree name) : s.IsOpen name s.files where
  kept := .refl s.files
  plain _ inside := .of_vacant (free.get?_eq_none inside)

theorem IsOpen.of_adds {paths : List String} (h : s.IsOpen name fs) (added : Adds paths fs made) :
    s.IsOpen name made where
  kept := h.kept.trans added.kept
  plain p inside := added.noLink (h.plain p inside)

/-! ## The way to a root -/

section

variable (isBase : s.IsBase base) (kept : s.files.KeptIn fs)

include isBase kept

theorem get?_place : fs.get? s.place = some .directory :=
  kept _ _ (FileSystem.find_eq_ok_iff.mp isBase.found).2.2

theorem find_base : fs.find base = .ok (s.place, .directory) := by
  refine FileSystem.find_of_kept kept ?_ isBase.found
  rw [Path.origin_of_isAbsolute isBase.absolute, Path.origin_of_isAbsolute isBase.absolute]

theorem walk_stem : fs.walk [] (Path.stem base) = .ok s.place := by
  obtain ⟨_, walked, directory⟩ := FileSystem.find_eq_ok_iff.mp (find_base isBase kept)
  rw [Path.origin_of_isAbsolute isBase.absolute] at walked
  exact (FileSystem.walk_stem_iff directory).mpr walked

/-- The way to the place was there at first. -/
theorem directory_of_isPrefix_stem {front : List (List Char)} (part : front <+: Path.stem base)
    (walked : fs.walk [] front = .ok p) : s.files.get? p = some .directory :=
  FileSystem.directory_of_walk_front kept (walk_stem isBase (.refl s.files))
    (get?_place isBase (.refl s.files)) part walked

end

section

variable (isBase : s.IsBase base) (h : s.IsOpen name fs) (drawn : IsRunName name)

include isBase h drawn

/-- Whatever leads below a root comes to it first, and follows no links from there. -/
theorem walk_leads (noUp : ['.', '.'] ∉ rest) :
    fs.walk [] (Path.stem base ++ name.toList :: rest) = fs.walkWithin 0 (s.root name) rest := by
  obtain ⟨n, le, walks⟩ := FileSystem.walk_eq_ok_iff.mp (walk_stem isBase h.kept)
  have stepped : fs.walkStep s.place name.toList = .ok (s.root name) :=
    FileSystem.walkStep_eq_ok_iff.mpr
      ⟨get?_place isBase h.kept, drawn.fits, step_root drawn⟩
  rw [FileSystem.walk, walks.walkWithin_append le,
    FileSystem.walkWithin_cons_of_noLink stepped (h.plain _ (List.prefix_refl _)),
    FileSystem.walkWithin_of_plain noUp h.plain]

theorem eq_along_of_walk (noUp : ['.', '.'] ∉ rest)
    (walked : fs.walk [] (Path.stem base ++ name.toList :: rest) = .ok p) :
    p = Location.along (s.root name) rest := by
  rw [walk_leads isBase h drawn noUp] at walked
  obtain ⟨_, _, walks⟩ := FileSystem.exists_walks_of_walkWithin walked
  exact (walks.eq_along noUp h.plain).2

theorem isPrefix_of_walk (noUp : ['.', '.'] ∉ rest)
    (walked : fs.walk [] (Path.stem base ++ name.toList :: rest) = .ok p) : s.root name <+: p := by
  rw [eq_along_of_walk isBase h drawn noUp walked]
  exact Location.isPrefix_along noUp _

variable (leads : Leads base name rest path)

include leads

theorem eq_along_of_find {entry : Entry} (found : fs.find path = .ok (p, entry)) :
    p = Location.along (s.root name) rest := by
  obtain ⟨_, walked, _⟩ := FileSystem.find_eq_ok_iff.mp found
  rw [Path.origin_of_isAbsolute (leads.isAbsolute isBase.absolute), leads.pieces] at walked
  exact eq_along_of_walk isBase h drawn leads.noUp walked

theorem isPrefix_of_find {entry : Entry} (found : fs.find path = .ok (p, entry)) :
    s.root name <+: p := by
  rw [eq_along_of_find isBase h drawn leads found]
  exact Location.isPrefix_along leads.noUp _

/-- What leads down from the root has its slot inside of it. -/
theorem isPrefix_of_slot (slot : fs.slot path = .ok p) : s.root name <+: p := by
  obtain ⟨_, parts⟩ := FileSystem.slot_eq_ok_iff.mp slot
  rw [Path.origin_of_isAbsolute (leads.isAbsolute isBase.absolute),
    leads.namingPieces_eq drawn.filled] at parts
  have fewer := leads.namesNoUp
  generalize (rest.reverse.dropWhile (· = [])).reverse = names at parts fewer
  rcases parts with ⟨none, _⟩ | ⟨front, piece, here, last, walked, stepped⟩
  · simp at none
  · obtain ⟨_, _, rfl⟩ := FileSystem.walkStep_eq_ok_iff.mp stepped
    rcases List.eq_nil_or_concat' names with rfl | ⟨names, final, rfl⟩
    · obtain rfl := List.append_inj_left' last rfl
      obtain rfl : name.toList = piece := by simpa using last
      obtain rfl : s.place = here :=
        Except.ok.inj ((walk_stem isBase h.kept).symm.trans walked)
      rw [step_root drawn]
    · rw [← List.cons_append, ← List.append_assoc] at last
      obtain rfl := List.append_inj_left' last rfl
      obtain rfl : final = piece := by simpa using last
      have noUp : ['.', '.'] ∉ names := fun up => fewer (List.mem_append_left _ up)
      have notUp : ['.', '.'] ∉ [final] := fun up => fewer (List.mem_append_right _ up)
      exact (isPrefix_of_walk isBase h drawn noUp walked).trans
        (Location.isPrefix_along notUp here)

/-- The way of a path that leads down from the root is a way to the root, and on from there. -/
theorem OnWay.inside_or (onWay : fs.OnWay path p) :
    s.files.get? p = some .directory ∨
      s.root name <+: p ∧ p <+: Location.along (s.root name) rest := by
  obtain ⟨_, front, part, walked⟩ := onWay
  rw [Path.origin_of_isAbsolute (leads.isAbsolute isBase.absolute)] at walked
  rw [leads.pieces] at part
  rcases List.prefix_or_prefix_of_prefix part (List.prefix_append (Path.stem base) _) with
    above | ⟨more, rfl⟩
  · exact Or.inl (directory_of_isPrefix_stem isBase h.kept above walked)
  · rw [List.prefix_append_right_inj] at part
    cases more with
    | nil => exact Or.inl (directory_of_isPrefix_stem isBase h.kept (by simp) walked)
    | cons first below =>
      obtain ⟨rfl, within⟩ := List.cons_prefix_cons.mp part
      have noUp : ['.', '.'] ∉ below := fun up => leads.noUp (within.subset up)
      obtain rfl := eq_along_of_walk isBase h drawn noUp walked
      exact Or.inr ⟨Location.isPrefix_along noUp _,
        Location.along_isPrefix_of_isPrefix within leads.noUp _⟩

/-! ## What is changed below a root -/

theorem changesWithin_of_adds (added : Adds [path] fs made) :
    ChangesWithin (fun p => s.root name <+: p ∧ p <+: Location.along (s.root name) rest)
      fs made where
  current := added.current
  tree := added.tree
  outside p out := by
    cases before : fs.get? p with
    | some entry => exact added.kept p entry before
    | none =>
      rcases added.added p before with vacant | ⟨_, member, onWay⟩
      · exact vacant
      · obtain rfl := List.mem_singleton.mp member
        rcases OnWay.inside_or isBase (h.of_adds added) drawn leads onWay with there | inside
        · exact nomatch before.symm.trans (h.kept p _ there)
        · exact absurd inside out

theorem changesWithin_makeDirectories {result : Except IoFault Unit}
    (done : fs.makeDirectories path = (made, result)) :
    ChangesWithin (fun p => s.root name <+: p ∧ p <+: Location.along (s.root name) rest) fs made :=
  changesWithin_of_adds isBase h drawn leads (FileSystem.adds_of_makeDirectories done)

end

section

variable (isBase : s.IsBase base) (h : s.IsOpen name fs) (free : s.IsFree name)
  (leads : Leads base name rest path)

include isBase h free leads

/-- What is found down from the root is found there whatever it holds. -/
theorem isFoundAt (found : fs.find path = .ok (p, .directory)) : Layout.IsFoundAt fs path p := by
  intro fs' changes
  have drawn := free.isRunName
  have under := isPrefix_of_find isBase h drawn leads found
  obtain ⟨usable, walked, directory⟩ := FileSystem.find_eq_ok_iff.mp found
  have origin := Path.origin_of_isAbsolute (leads.isAbsolute isBase.absolute)
  rw [origin, leads.pieces, walk_leads isBase h drawn leads.noUp] at walked
  obtain ⟨_, le, down⟩ := FileSystem.exists_walks_of_walkWithin walked
  obtain rfl := Nat.le_zero.mp le
  have same : ∀ q, q <+: p → fs'.get? q = fs.get? q := fun q above =>
    changes.outside q fun below => below.2 (below.1.eq_of_length_le above.length_le).symm
  have kept : s.files.KeptIn fs' := fun q entry there => by
    rw [changes.outside q fun below => free.not_isPrefix there (under.trans below.1)]
    exact h.kept q entry there
  have further : fs'.Walks 0 s.place (name.toList :: rest) p := by
    refine .step (get?_place isBase kept) drawn.fits ?_ ?_ <;> rw [step_root drawn]
    · rw [NoLink, same _ under]
      exact h.plain _ (List.prefix_refl _)
    · exact down.of_above leads.noUp h.plain same
  obtain ⟨n, le, way⟩ := FileSystem.walk_eq_ok_iff.mp (walk_stem isBase kept)
  refine FileSystem.find_eq_ok_iff.mpr ⟨usable, ?_, (same p (List.prefix_refl p)).trans directory⟩
  rw [origin, leads.pieces]
  exact FileSystem.walk_eq_ok_iff.mpr ⟨n, le, (Nat.zero_add n) ▸ way.append further⟩

end

end Site
end BasicBlocks
