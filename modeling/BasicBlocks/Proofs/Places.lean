import BasicBlocks.Proofs.Paths

/-!
# Places

Where the walk along a path leads. A walk passes through directories and follows links, so it leads
to the same place in every file system that keeps them. The walk along two joined paths is the walk
along the first, and on from there along the second; where no links are, it goes where the pieces
lead.
-/

namespace BasicBlocks

namespace FileSystem

variable {fs fs' : FileSystem} {here next mid place p : Location} {path target : String}
  {piece : List Char} {pieces rest ps qs : List (List Char)} {n : Nat} {cause : IoFault}

/-- The piece is no longer than a name may be. -/
def Fits (piece : List Char) : Prop :=
  Path.isVoid piece = true ∨ piece = ['.', '.'] ∨ (String.ofList piece).utf8ByteSize ≤ nameLimit

theorem walkStep_eq_ok_iff :
    fs.walkStep here piece = .ok next ↔
      fs.get? here = some .directory ∧ Fits piece ∧ Location.step here piece = next := by
  unfold walkStep
  split
  next absent => simp [absent]
  next found => simp [found]
  next found => simp [found]
  next found =>
    simp only [found, Fits, Location.step, true_and]
    split
    next void => simp [void]
    next named =>
      split
      next up => simp [up]
      next down =>
        split
        next long => simp [named, down, Nat.not_le.mpr long]
        next fits => simp [named, down, Nat.le_of_not_lt fits]

/-- No link lies here. -/
def NoLink (fs : FileSystem) (p : Location) : Prop := ∀ target, fs.get? p ≠ some (.link target)

theorem NoLink.of_directory (h : fs.get? p = some .directory) : fs.NoLink p := by simp [NoLink, h]

theorem NoLink.of_vacant (h : fs.get? p = none) : fs.NoLink p := by simp [NoLink, h]

/-! ## Walks that arrive -/

/-- Pieces lead from here to a place, through directories and along so many links. -/
inductive Walks (fs : FileSystem) : Nat → Location → List (List Char) → Location → Prop
  | done (here : Location) : Walks fs 0 here [] here
  | step {n : Nat} {here place : Location} {piece : List Char} {rest : List (List Char)}
      (holder : fs.get? here = some .directory) (fits : Fits piece)
      (noLink : fs.NoLink (Location.step here piece))
      (later : Walks fs n (Location.step here piece) rest place) :
      Walks fs n here (piece :: rest) place
  | link {n : Nat} {here place : Location} {piece : List Char} {rest : List (List Char)}
      {target : String} (holder : fs.get? here = some .directory) (fits : Fits piece)
      (leads : fs.get? (Location.step here piece) = some (.link target))
      (later : Walks fs n (Path.origin here target) (Path.pieces target ++ rest) place) :
      Walks fs (n + 1) here (piece :: rest) place

theorem walkWithin_nil (n : Nat) (here : Location) : fs.walkWithin n here [] = .ok here := by
  cases n <;> rfl

theorem walkWithin_cons_of_error (stepped : fs.walkStep here piece = .error cause) :
    fs.walkWithin n here (piece :: rest) = .error cause := by
  cases n <;> simp [walkWithin, walkOn, stepped, bind, Except.bind]

theorem walkWithin_cons_of_noLink (stepped : fs.walkStep here piece = .ok next)
    (noLink : fs.NoLink next) :
    fs.walkWithin n here (piece :: rest) = fs.walkWithin n next rest := by
  rcases there : fs.get? next with _ | _ | _ | target
  case some.link => exact absurd there (noLink target)
  all_goals cases n <;> simp [walkWithin, walkOn, stepped, there, bind, Except.bind]

theorem walkWithin_cons_of_link (stepped : fs.walkStep here piece = .ok next)
    (leads : fs.get? next = some (.link target)) :
    fs.walkWithin (n + 1) here (piece :: rest) =
      fs.walkWithin n (Path.origin here target) (Path.pieces target ++ rest) := by
  simp [walkWithin, walkOn, stepped, leads, bind, Except.bind]

theorem walkWithin_zero_cons_of_link (stepped : fs.walkStep here piece = .ok next)
    (leads : fs.get? next = some (.link target)) :
    fs.walkWithin 0 here (piece :: rest) = .error .tooManyLinks := by
  simp [walkWithin, walkOn, stepped, leads, bind, Except.bind]

/-- Either a link lies here, or none. -/
theorem exists_link_or_noLink (fs : FileSystem) (p : Location) :
    (∃ target, fs.get? p = some (.link target)) ∨ fs.NoLink p := by
  by_cases link : ∃ target, fs.get? p = some (.link target)
  · exact Or.inl link
  · exact Or.inr (not_exists.mp link)

theorem exists_walks_of_walkWithin (h : fs.walkWithin n here pieces = .ok place) :
    ∃ m ≤ n, Walks fs m here pieces place := by
  -- On the links that are left, and for so many on the pieces.
  induction n generalizing here pieces with
  | zero =>
    induction pieces generalizing here with
    | nil =>
      obtain rfl : here = place := Except.ok.inj h
      exact ⟨0, Nat.le_refl 0, .done here⟩
    | cons piece rest ih =>
      cases stepped : fs.walkStep here piece with
      | error cause => exact nomatch (walkWithin_cons_of_error stepped).symm.trans h
      | ok next =>
        rcases fs.exists_link_or_noLink next with ⟨target, leads⟩ | noLink
        · exact nomatch (walkWithin_zero_cons_of_link stepped leads).symm.trans h
        · rw [walkWithin_cons_of_noLink stepped noLink] at h
          obtain ⟨m, le, later⟩ := ih h
          obtain ⟨holder, fits, rfl⟩ := walkStep_eq_ok_iff.mp stepped
          exact ⟨m, le, .step holder fits noLink later⟩
  | succ n follow =>
    induction pieces generalizing here with
    | nil =>
      obtain rfl : here = place := Except.ok.inj h
      exact ⟨0, Nat.zero_le _, .done here⟩
    | cons piece rest ih =>
      cases stepped : fs.walkStep here piece with
      | error cause => exact nomatch (walkWithin_cons_of_error stepped).symm.trans h
      | ok next =>
        rcases fs.exists_link_or_noLink next with ⟨target, leads⟩ | noLink
        · rw [walkWithin_cons_of_link stepped leads] at h
          obtain ⟨m, le, later⟩ := follow h
          obtain ⟨holder, fits, rfl⟩ := walkStep_eq_ok_iff.mp stepped
          exact ⟨m + 1, Nat.succ_le_succ le, .link holder fits leads later⟩
        · rw [walkWithin_cons_of_noLink stepped noLink] at h
          obtain ⟨m, le, later⟩ := ih h
          obtain ⟨holder, fits, rfl⟩ := walkStep_eq_ok_iff.mp stepped
          exact ⟨m, le, .step holder fits noLink later⟩

namespace Walks

variable {m k : Nat}

/-- After a walk that arrives, with the links that are left. -/
theorem walkWithin_append (h : Walks fs m here ps mid) (le : m ≤ n) (qs : List (List Char)) :
    fs.walkWithin n here (ps ++ qs) = fs.walkWithin (n - m) mid qs := by
  induction h generalizing n with
  | done here => rfl
  | step holder fits noLink later ih =>
    rw [List.cons_append, walkWithin_cons_of_noLink (walkStep_eq_ok_iff.mpr ⟨holder, fits, rfl⟩)
      noLink, ih le]
  | link holder fits leads later ih =>
    obtain ⟨n, rfl⟩ := Nat.exists_eq_add_one_of_ne_zero (Nat.ne_zero_of_lt le)
    rw [List.cons_append, walkWithin_cons_of_link (walkStep_eq_ok_iff.mpr ⟨holder, fits, rfl⟩)
      leads, ← List.append_assoc, ih (Nat.le_of_succ_le_succ le), Nat.add_sub_add_right]

theorem walkWithin_eq (h : Walks fs m here pieces place) (le : m ≤ n) :
    fs.walkWithin n here pieces = .ok place := by
  have whole := h.walkWithin_append le []
  rwa [List.append_nil, walkWithin_nil] at whole

/-- There is only one place to arrive at. -/
theorem unique {place' : Location} (h : Walks fs m here pieces place)
    (h' : Walks fs k here pieces place') : place = place' :=
  Except.ok.inj ((h.walkWithin_eq (Nat.le_max_left m k)).symm.trans
    (h'.walkWithin_eq (Nat.le_max_right m k)))

theorem append (h : Walks fs m here ps mid) (h' : Walks fs k mid qs place) :
    Walks fs (k + m) here (ps ++ qs) place := by
  induction h with
  | done here => exact h'
  | step holder fits noLink _ ih => exact .step holder fits noLink (ih h')
  | link holder fits leads _ ih =>
    have further := ih h'
    rw [List.append_assoc] at further
    exact .link holder fits leads further

theorem exists_of_append (h : Walks fs n here (ps ++ qs) place) :
    ∃ m k mid, k + m = n ∧ Walks fs m here ps mid ∧ Walks fs k mid qs place := by
  generalize whole : ps ++ qs = pieces at h
  induction h generalizing ps with
  | done here =>
    obtain ⟨rfl, rfl⟩ := List.append_eq_nil_iff.mp whole
    exact ⟨0, 0, here, rfl, .done here, .done here⟩
  | @step n here place piece rest holder fits noLink later ih =>
    cases ps with
    | nil =>
      obtain rfl : qs = piece :: rest := whole
      exact ⟨0, n, here, rfl, .done here, .step holder fits noLink later⟩
    | cons first ps =>
      obtain ⟨rfl, rfl⟩ := List.cons.inj whole
      obtain ⟨m, k, mid, sum, front, back⟩ := ih rfl
      exact ⟨m, k, mid, sum, .step holder fits noLink front, back⟩
  | @link n here place piece rest target holder fits leads later ih =>
    cases ps with
    | nil =>
      obtain rfl : qs = piece :: rest := whole
      exact ⟨0, n + 1, here, rfl, .done here, .link holder fits leads later⟩
    | cons first ps =>
      obtain ⟨rfl, rfl⟩ := List.cons.inj whole
      obtain ⟨m, k, mid, sum, front, back⟩ := ih (List.append_assoc _ _ _)
      exact ⟨m + 1, k, mid, by omega, .link holder fits leads front, back⟩

/-- It arrives at the same place wherever the directories and links are the same. -/
theorem of_ways (ways : ∀ p, (fs.get? p = some .directory ∨ ¬ fs.NoLink p) →
    fs'.get? p = fs.get? p) (last : fs'.NoLink place) (h : Walks fs n here pieces place) :
    Walks fs' n here pieces place := by
  induction h with
  | done here => exact .done here
  | @step n here place piece rest holder fits noLink later ih =>
    refine .step ((ways here (Or.inl holder)).trans holder) fits ?_ (ih last)
    cases later with
    | done => exact last
    | step holder => exact .of_directory ((ways _ (Or.inl holder)).trans holder)
    | link holder => exact .of_directory ((ways _ (Or.inl holder)).trans holder)
  | link holder fits leads _ ih =>
    have noLink : ¬ fs.NoLink _ := fun none => none _ leads
    exact .link ((ways _ (Or.inl holder)).trans holder) fits
      ((ways _ (Or.inr noLink)).trans leads) (ih last)

/-- A walk that takes a step does not end at a link. -/
theorem noLink (h : Walks fs n here pieces place) (more : pieces ≠ []) : fs.NoLink place := by
  induction h with
  | done => exact absurd rfl more
  | step _ _ noLink later ih =>
    cases later with
    | done => exact noLink
    | step => exact ih (List.cons_ne_nil _ _)
    | link => exact ih (List.cons_ne_nil _ _)
  | link _ _ _ _ ih => exact ih (List.append_ne_nil_of_left_ne_nil (Split.pieces_ne_nil _ _) _)

/-- What it sets out from is a directory. -/
theorem holder (h : Walks fs n here pieces place) (more : pieces ≠ []) :
    fs.get? here = some .directory := by
  cases h with
  | done => exact absurd rfl more
  | step holder => exact holder
  | link holder => exact holder

/-- Where no links are it leads down by the names of its pieces. -/
theorem eq_along (h : Walks fs n here pieces place) (noUp : ['.', '.'] ∉ pieces)
    (plain : ∀ p, here <+: p → fs.NoLink p) : n = 0 ∧ place = Location.along here pieces := by
  induction h with
  | done => exact ⟨rfl, rfl⟩
  | @step n here place piece rest _ _ _ _ ih =>
    have under := Location.isPrefix_step noUp here
    exact ih (fun up => noUp (List.mem_cons_of_mem piece up)) fun p below =>
      plain p (under.trans below)
  | @link n here place piece rest target _ _ leads _ _ =>
    have under := Location.isPrefix_step noUp here
    exact absurd leads (plain _ under target)

/-- Down where no links are, it is enough that all above its end is the same. -/
theorem of_above (h : Walks fs n here pieces place) (noUp : ['.', '.'] ∉ pieces)
    (plain : ∀ p, here <+: p → fs.NoLink p) (same : ∀ p, p <+: place → fs'.get? p = fs.get? p) :
    Walks fs' n here pieces place := by
  induction h with
  | done here => exact .done here
  | @step n here place piece rest holder fits noLink later ih =>
    have noUp' : ['.', '.'] ∉ rest := fun up => noUp (List.mem_cons_of_mem piece up)
    have under := Location.isPrefix_step noUp here
    have plain' := fun p below => plain p (under.trans below)
    have above : Location.step here piece <+: place := by
      rw [(later.eq_along noUp' plain').2]
      exact Location.isPrefix_along noUp' _
    refine .step ((same here (under.trans above)).trans holder) fits ?_ (ih noUp' plain' same)
    rw [NoLink, same _ above]
    exact noLink
  | @link n here place piece rest target _ _ leads _ _ =>
    have under := Location.isPrefix_step noUp here
    exact absurd leads (plain _ under target)

end Walks

/-- Where no links are it does not matter how many may be followed. -/
theorem walkWithin_of_plain (noUp : ['.', '.'] ∉ pieces) (plain : ∀ p, here <+: p → fs.NoLink p)
    (n : Nat) : fs.walkWithin n here pieces = fs.walkWithin 0 here pieces := by
  induction pieces generalizing here with
  | nil => rw [walkWithin_nil, walkWithin_nil]
  | cons piece rest ih =>
    have noUp' : ['.', '.'] ∉ rest := fun up => noUp (List.mem_cons_of_mem piece up)
    cases stepped : fs.walkStep here piece with
    | error cause => rw [walkWithin_cons_of_error stepped, walkWithin_cons_of_error stepped]
    | ok next =>
      obtain ⟨_, _, rfl⟩ := walkStep_eq_ok_iff.mp stepped
      have under := Location.isPrefix_step noUp here
      have noLink := plain _ under
      rw [walkWithin_cons_of_noLink stepped noLink, walkWithin_cons_of_noLink stepped noLink,
        ih noUp' fun p below => plain p (under.trans below)]

theorem walk_eq_ok_iff :
    fs.walk here pieces = .ok place ↔ ∃ n ≤ linkLimit, Walks fs n here pieces place :=
  ⟨exists_walks_of_walkWithin, fun ⟨_, le, walks⟩ => walks.walkWithin_eq le⟩

/-- All that lies in some files lies in the others as well. -/
def KeptIn (fs fs' : FileSystem) : Prop :=
  ∀ p entry, fs.get? p = some entry → fs'.get? p = some entry

theorem KeptIn.refl (fs : FileSystem) : fs.KeptIn fs := fun _ _ there => there

theorem KeptIn.trans {made : FileSystem} (first : fs.KeptIn fs') (second : fs'.KeptIn made) :
    fs.KeptIn made :=
  fun p entry there => second p entry (first p entry there)

/-- Where nothing is left of files that are kept, there was nothing. -/
theorem KeptIn.vacant (kept : fs.KeptIn fs') (vacant : fs'.get? p = none) : fs.get? p = none :=
  Option.eq_none_iff_forall_ne_some.mpr fun entry there =>
    nomatch vacant.symm.trans (kept p entry there)

theorem Walks.of_kept (h : Walks fs n here pieces place) (kept : fs.KeptIn fs')
    (last : fs'.NoLink place) : Walks fs' n here pieces place := by
  refine h.of_ways (fun p way => ?_) last
  rcases way with directory | link
  · rw [directory, kept p _ directory]
  · obtain ⟨target, leads⟩ := (fs.exists_link_or_noLink p).resolve_right link
    rw [leads, kept p _ leads]

theorem walk_of_kept (kept : fs.KeptIn fs') (last : fs'.NoLink place)
    (h : fs.walk here pieces = .ok place) : fs'.walk here pieces = .ok place := by
  obtain ⟨n, le, walks⟩ := walk_eq_ok_iff.mp h
  exact walk_eq_ok_iff.mpr ⟨n, le, walks.of_kept kept last⟩

/-! ## What is found -/

theorem start_eq_ok_iff :
    fs.start path = .ok here ↔ Path.IsUsable path ∧ here = Path.origin fs.current path := by
  unfold start
  constructor
  · intro h
    split at h
    next => cases h
    next noNul =>
      split at h
      next => cases h
      next filled =>
        split at h
        next => cases h
        next short =>
          refine ⟨⟨?_, ?_, Nat.lt_of_not_le short⟩, (Except.ok.inj h).symm⟩
          · simpa using noNul
          · simpa using filled
  · rintro ⟨⟨noNul, filled, short⟩, rfl⟩
    simp [noNul, filled, Nat.not_le.mpr short]

theorem exists_start_error (fs : FileSystem) (unusable : ¬ Path.IsUsable path) :
    ∃ cause, fs.start path = .error cause := by
  cases started : fs.start path with
  | error cause => exact ⟨cause, rfl⟩
  | ok here => exact absurd (start_eq_ok_iff.mp started).1 unusable

theorem walk_start_eq_ok_iff :
    (fs.start path >>= fun here => fs.walk here pieces) = .ok place ↔
      Path.IsUsable path ∧ fs.walk (Path.origin fs.current path) pieces = .ok place := by
  by_cases usable : Path.IsUsable path
  · rw [start_eq_ok_iff.mpr ⟨usable, rfl⟩]
    exact (and_iff_right usable).symm
  · obtain ⟨cause, refused⟩ := exists_start_error fs usable
    simp [refused, usable, bind, Except.bind]

theorem find_eq_ok_iff {entry : Entry} :
    fs.find path = .ok (place, entry) ↔
      Path.IsUsable path ∧
        fs.walk (Path.origin fs.current path) (Path.pieces path) = .ok place ∧
          fs.get? place = some entry := by
  have located : fs.locate path = .ok place ↔ _ := walk_start_eq_ok_iff
  rw [← and_assoc, ← located, find]
  cases fs.locate path with
  | error cause => simp [bind, Except.bind]
  | ok p =>
    dsimp only [bind, Except.bind]
    rw [Except.ok.injEq]
    split
    next vacant =>
      refine iff_of_false (fun h => nomatch h) ?_
      rintro ⟨rfl, found⟩
      exact nomatch vacant.symm.trans found
    next found =>
      rw [Except.ok.injEq, Prod.mk.injEq]
      constructor
      · rintro ⟨rfl, rfl⟩
        exact ⟨rfl, found⟩
      · rintro ⟨rfl, found'⟩
        exact ⟨rfl, Option.some.inj (found.symm.trans found')⟩

/-- What is found is no link. -/
theorem noLink_of_find {entry : Entry} (h : fs.find path = .ok (place, entry)) :
    fs.NoLink place := by
  obtain ⟨_, walked, _⟩ := find_eq_ok_iff.mp h
  obtain ⟨n, _, walks⟩ := walk_eq_ok_iff.mp walked
  exact walks.noLink (Split.pieces_ne_nil _ _)

theorem find_unique {entry entry' : Entry} {place' : Location}
    (h : fs.find path = .ok (place, entry)) (h' : fs.find path = .ok (place', entry')) :
    place = place' :=
  congrArg Prod.fst (Except.ok.inj (h.symm.trans h'))

/-- What is found is found wherever it is kept with all there was. -/
theorem find_of_kept {entry : Entry}
    (kept : fs.KeptIn fs') (begins : Path.origin fs'.current path = Path.origin fs.current path)
    (h : fs.find path = .ok (place, entry)) : fs'.find path = .ok (place, entry) := by
  have noLink := noLink_of_find h
  obtain ⟨usable, walked, there⟩ := find_eq_ok_iff.mp h
  refine find_eq_ok_iff.mpr ⟨usable, ?_, kept place entry there⟩
  rw [begins]
  refine walk_of_kept kept ?_ walked
  rw [NoLink, kept place entry there, ← there]
  exact noLink

theorem slot_of_concat {front : List (List Char)} (last : namingPieces path = front ++ [piece]) :
    fs.slot path =
      fs.start path >>= fun here => fs.walk here front >>= fun holder =>
        fs.walkStep holder piece := by
  unfold slot
  rw [last, List.getLast?_concat, List.dropLast_concat]

theorem slot_eq_ok_iff :
    fs.slot path = .ok place ↔ Path.IsUsable path ∧
      (namingPieces path = [] ∧ place = Path.origin fs.current path ∨
        ∃ front piece here, namingPieces path = front ++ [piece] ∧
          fs.walk (Path.origin fs.current path) front = .ok here ∧
            fs.walkStep here piece = .ok place) := by
  unfold slot
  by_cases usable : Path.IsUsable path
  · rw [start_eq_ok_iff.mpr ⟨usable, rfl⟩]
    dsimp only [bind, Except.bind]
    rcases List.eq_nil_or_concat' (namingPieces path) with none | ⟨front, piece, last⟩
    · rw [none]
      constructor
      · exact fun h => ⟨usable, Or.inl ⟨rfl, (Except.ok.inj h).symm⟩⟩
      · rintro ⟨_, ⟨_, rfl⟩ | ⟨front, piece, _, last, _⟩⟩
        · rfl
        · simp at last
    · rw [last, List.getLast?_concat, List.dropLast_concat]
      dsimp only
      cases walked : fs.walk (Path.origin fs.current path) front with
      | error cause =>
        refine iff_of_false (fun h => nomatch h) ?_
        rintro ⟨_, ⟨none, _⟩ | ⟨front', piece', here, same, walked', _⟩⟩
        · simp at none
        · obtain rfl := List.append_inj_left' same rfl
          exact nomatch walked.symm.trans walked'
      | ok here =>
        constructor
        · exact fun stepped => ⟨usable, Or.inr ⟨front, piece, here, rfl, walked, stepped⟩⟩
        · rintro ⟨_, ⟨none, _⟩ | ⟨front', piece', here', same, walked', stepped⟩⟩
          · simp at none
          · obtain rfl := List.append_inj_left' same rfl
            obtain rfl : here = here' := Except.ok.inj (walked.symm.trans walked')
            obtain rfl : piece = piece' := by simpa using same
            exact stepped
  · obtain ⟨cause, refused⟩ := exists_start_error fs usable
    rw [refused]
    exact iff_of_false (fun h => nomatch h) fun h => usable h.1

/-- The slot of a path is the same wherever all is kept. -/
theorem slot_of_kept (kept : fs.KeptIn fs')
    (begins : Path.origin fs'.current path = Path.origin fs.current path)
    (h : fs.slot path = .ok place) : fs'.slot path = .ok place := by
  obtain ⟨usable, ⟨none, here⟩ | ⟨front, piece, here, last, walked, stepped⟩⟩ :=
    slot_eq_ok_iff.mp h
  · exact slot_eq_ok_iff.mpr ⟨usable, Or.inl ⟨none, begins ▸ here⟩⟩
  · obtain ⟨holder, fits, arrives⟩ := walkStep_eq_ok_iff.mp stepped
    have holder' := kept here _ holder
    refine slot_eq_ok_iff.mpr ⟨usable, Or.inr ⟨front, piece, here, last, ?_, ?_⟩⟩
    · rw [begins]
      exact walk_of_kept kept (.of_directory holder') walked
    · exact walkStep_eq_ok_iff.mpr ⟨holder', fits, arrives⟩

theorem isDirectory_iff :
    fs.isDirectory path = true ↔ ∃ place, fs.find path = .ok (place, .directory) := by
  unfold isDirectory
  rcases fs.find path with cause | ⟨place, _ | ⟨bytes, executable⟩ | target⟩ <;> simp

theorem isFile_eq (fs : FileSystem) (path : String) :
    fs.isFile path = (fs.read path).toOption.isSome := by
  unfold isFile read
  rcases fs.find path with cause | ⟨place, _ | ⟨bytes, executable⟩ | target⟩ <;> rfl

theorem isFile_iff : fs.isFile path = true ↔ ∃ bytes, fs.read path = .ok bytes := by
  rw [isFile_eq]
  cases fs.read path <;> simp [Except.toOption]

end FileSystem
end BasicBlocks
