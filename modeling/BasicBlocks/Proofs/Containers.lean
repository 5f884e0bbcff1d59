import BasicBlocks.Tool.Disassembler
import BasicBlocks.Proofs.Descents
import BasicBlocks.Proofs.ScratchSpace

/-!
# Paths in a container

A container sees the scratch root under a name of its own. The paths that it is given lead on from
there by the names that lead on from the root, so with the root put back they denote what the host's
paths denote.
-/

namespace BasicBlocks

/-! ## Names below a root -/

namespace Path

variable {root path name : String} {names : List String}

/-- The path goes on from a root by these names. -/
structure GoesOn (root : String) (names : List String) (path : String) : Prop where
  filled : names ≠ []
  named : ∀ name ∈ names, IsName name
  pieces : pieces path = stem root ++ names.map String.toList

theorem filter_names (named : ∀ name ∈ names, IsName name) :
    (names.map String.toList).filter (!isVoid ·) = names.map String.toList := by
  rw [List.filter_eq_self]
  intro piece member
  obtain ⟨name, hname, rfl⟩ := List.mem_map.mp member
  simp [(named name hname).notVoid]

theorem map_ofPiece_names (named : ∀ name ∈ names, IsName name) :
    (names.map String.toList).map Component.ofPiece = names.map .name := by
  rw [List.map_map]
  refine List.map_congr_left fun name member => ?_
  simp [Component.ofPiece, (named name member).notUp]

theorem trimBody_names (named : ∀ name ∈ names, IsName name) (filled : names ≠ [])
    (ps : List (List Char)) :
    trimBody (ps ++ names.map String.toList) = ps ++ names.map String.toList := by
  obtain ⟨front, last, rfl⟩ := (List.eq_nil_or_concat' names).resolve_left filled
  have notVoid := (named last (by simp)).notVoid
  rw [List.map_append, List.map_singleton, ← List.append_assoc]
  exact reverse_dropWhile_append_cons notVoid _ []

/-- Names that stand alone are a relative path. -/
theorem components_joined_names (named : ∀ name ∈ names, IsName name) (filled : names ≠ []) :
    components (String.ofList (Split.joined '/' (names.map String.toList))) =
      names.map .name := by
  have unmarked := noSlash_of_names named
  have whole : Path.pieces (String.ofList (Split.joined '/' (names.map String.toList))) =
      names.map String.toList := by
    rw [Path.pieces, String.toList_ofList, Split.pieces_joined_names filled named]
  obtain ⟨first, rest, rfl⟩ := List.exists_cons_of_ne_nil filled
  have isName := named first List.mem_cons_self
  have notVoid : first.toList ≠ [] ∧ first.toList ≠ ['.'] := by
    simpa [isVoid] using isName.notVoid
  rw [List.map_cons] at unmarked whole
  have relative := (pieces_of_joined notVoid.1 unmarked).1
  have begins : front (String.ofList (Split.joined '/' ((first :: rest).map String.toList))) =
      (none, (first :: rest).map String.toList) := by
    rw [List.map_cons]
    simp only [front, whole, relative, Bool.false_eq_true, if_false, notVoid.2]
  simp only [components, begins, Option.toList_none, List.nil_append]
  rw [filter_names named, map_ofPiece_names named]

/-- As many components as are before the rest are dropped. -/
theorem dropComponents_append {rest : List (List Char)}
    (visible : ∀ piece ∈ rest.head?, isVoid piece = false) (top : List (List Char)) :
    dropComponents (top.filter (!isVoid ·)).length (top ++ rest) = rest := by
  induction top with
  | nil =>
    cases rest with
    | nil => rfl
    | cons piece rest => exact List.dropWhile_cons_of_neg (by simp [visible piece rfl])
  | cons piece top ih =>
    by_cases void : isVoid piece = true
    · have skip (n : Nat) : dropComponents n (piece :: (top ++ rest)) =
          dropComponents n (top ++ rest) := by
        cases n <;> simp [dropComponents, void]
      rw [List.filter_cons_of_neg (by simpa using void), List.cons_append, skip, ih]
    · rw [List.filter_cons_of_pos (by simpa using void), List.length_cons, List.cons_append,
        dropComponents, List.dropWhile_cons_of_neg (by simpa using void)]
      exact ih

/-- The pieces of a root, but for an empty one at the end, are followed by nothing that is said. -/
theorem exists_top (absolute : isAbsolute root = true) :
    ∃ top, stem root = [] :: top ∧
      components root = .root :: (top.filter (!isVoid ·)).map .ofPiece := by
  obtain ⟨body, whole, begins⟩ := exists_body absolute
  obtain ⟨top, stemmed⟩ := exists_stem_eq absolute
  refine ⟨top, stemmed, ?_⟩
  have said : body.filter (!isVoid ·) = top.filter (!isVoid ·) := by
    rw [stem, whole, unslashed] at stemmed
    split at stemmed
    next last =>
      obtain ⟨front, ends⟩ := List.getLast?_eq_some_iff.mp last
      rw [ends, List.dropLast_concat] at stemmed
      rw [stemmed, List.cons_append] at ends
      rw [(List.cons.inj ends).2, List.filter_append]
      simp [isVoid]
    next => rw [(List.cons.inj stemmed).2]
  simp only [components, begins, said]
  rfl

namespace GoesOn

theorem of_root (root : String) (isName : IsName name) :
    GoesOn root [name] (join root name) where
  filled := List.cons_ne_nil _ _
  named := by simpa using isName
  pieces := by
    rw [pieces_join_eq isName.relative, isName.pieces]
    rfl

variable (h : GoesOn root names path)

include h

theorem join (isName : IsName name) : GoesOn root (names ++ [name]) (join path name) where
  filled := by simp
  named := by simpa [or_imp, forall_and] using And.intro h.named isName
  pieces := by
    rw [pieces_join_eq isName.relative, stem, h.pieces, unslashed_names h.named _ h.filled,
      isName.pieces]
    simp

variable (absolute : Path.isAbsolute root = true)

include absolute

theorem isAbsolute : Path.isAbsolute path = true := by
  obtain ⟨top, stemmed, _⟩ := exists_top absolute
  have whole := h.pieces
  rw [stemmed, List.cons_append] at whole
  cases absolute' : Path.isAbsolute path with
  | true => rfl
  | false =>
    exfalso
    by_cases filled : path = ""
    · rw [filled, pieces_empty] at whole
      have none := (List.cons.inj whole).2.symm
      exact h.filled (List.map_eq_nil_iff.mp (List.append_eq_nil_iff.mp none).2)
    · obtain ⟨piece, rest, begins, notEmpty⟩ := exists_pieces_of_relative absolute' filled
      exact notEmpty (List.cons.inj (begins.symm.trans whole)).1

theorem front_eq {top : List (List Char)} (stemmed : stem root = [] :: top) :
    front path = (some .root, top ++ names.map String.toList) := by
  simp [front, h.pieces, stemmed, h.isAbsolute absolute]

theorem components_eq : components path = components root ++ names.map .name := by
  obtain ⟨top, stemmed, whole⟩ := exists_top absolute
  simp only [components, h.front_eq absolute stemmed]
  rw [List.filter_append, List.map_append, filter_names h.named, map_ofPiece_names h.named]
  rw [← List.append_assoc]
  congr 1
  exact whole.symm

/-- What follows the root are the names. -/
theorem strip?_eq : strip? path root =
    some (String.ofList (Split.joined '/' (names.map String.toList))) := by
  obtain ⟨top, stemmed, whole⟩ := exists_top absolute
  have begins := h.front_eq absolute stemmed
  have rest : dropComponents (top.filter (!isVoid ·)).length (top ++ names.map String.toList) =
      names.map String.toList := by
    refine dropComponents_append (fun piece first => ?_) top
    obtain ⟨name, hname, rfl⟩ := List.mem_map.mp (List.mem_of_mem_head? first)
    exact (h.named name hname).notVoid
  have within : (components root).isPrefixOf (components path) = true := by
    rw [h.components_eq absolute, List.isPrefixOf_iff_prefix]
    exact List.prefix_append _ _
  have long : (components root).length = (top.filter (!isVoid ·)).length + 1 := by
    rw [whole, List.length_cons, List.length_map]
  unfold strip?
  simp only [begins, within, long, if_true, Option.isSome_some]
  rw [rest, ← List.nil_append (names.map String.toList), trimBody_names h.named h.filled]

/-- The path is the parent of what it holds. -/
theorem parent?_join (isName : IsName name) : parent? (Path.join path name) = some path := by
  obtain ⟨top, stemmed, _⟩ := exists_top absolute
  have whole := h.join isName
  have begins := whole.front_eq absolute stemmed
  have text : assemble (some .root) (top ++ names.map String.toList) = path := by
    have filled : (top ++ names.map String.toList).isEmpty = false := by
      simpa using fun _ => h.filled
    rw [assemble, filled, if_neg Bool.false_ne_true, ← List.cons_append, ← stemmed, ← h.pieces,
      Path.pieces, Split.joined_pieces, String.ofList_toList]
  simp only [parent?, begins]
  rw [trimBody_names whole.named whole.filled, List.map_append, List.map_singleton,
    ← List.append_assoc, List.dropLast_concat, trimBody_names h.named h.filled, text]
  simp

end GoesOn

/-- Two paths denote the same: they have the same components, and in every file system the walk
along both ends alike. -/
structure Same (path path' : String) : Prop where
  components : components path = components path'
  walk : ∀ (fs : FileSystem) (here : Location),
    fs.walk here (pieces path) = fs.walk here (pieces path')

theorem walkStep_of_empty_piece {fs : FileSystem} {here : Location} {cause : IoFault}
    (refused : fs.walkStep here [] = .error cause) (piece : List Char) :
    fs.walkStep here piece = .error cause := by
  unfold FileSystem.walkStep at refused ⊢
  split at refused <;> simp_all [isVoid]

theorem walkWithin_empty_first {fs : FileSystem} {n : Nat} (here : Location)
    {qs : List (List Char)} (more : qs ≠ []) :
    fs.walkWithin n here ([] ++ [] :: qs) = fs.walkWithin n here ([] ++ qs) := by
  obtain ⟨piece, rest, rfl⟩ := List.exists_cons_of_ne_nil more
  rw [List.nil_append, List.nil_append]
  cases stepped : fs.walkStep here [] with
  | error cause =>
    rw [FileSystem.walkWithin_cons_of_error stepped,
      FileSystem.walkWithin_cons_of_error (walkStep_of_empty_piece stepped piece)]
  | ok next =>
    obtain ⟨holder, _, rfl⟩ := FileSystem.walkStep_eq_ok_iff.mp stepped
    rw [Location.step_empty] at stepped
    rw [FileSystem.walkWithin_cons_of_noLink stepped (.of_directory holder)]

/-- A piece that is empty makes no difference to a walk that goes on. -/
theorem walkWithin_empty_piece (fs : FileSystem) (n : Nat) (here : Location)
    (ps : List (List Char)) {qs : List (List Char)} (more : qs ≠ []) :
    fs.walkWithin n here (ps ++ [] :: qs) = fs.walkWithin n here (ps ++ qs) := by
  -- On the links that are left, since what a link leads to comes before the rest.
  induction n using Nat.strongRecOn generalizing here ps with
  | ind n follow =>
    induction ps generalizing here with
    | nil => exact walkWithin_empty_first here more
    | cons piece ps ih =>
      rw [List.cons_append, List.cons_append]
      cases stepped : fs.walkStep here piece with
      | error cause =>
        rw [FileSystem.walkWithin_cons_of_error stepped,
          FileSystem.walkWithin_cons_of_error stepped]
      | ok next =>
        rcases fs.exists_link_or_noLink next with ⟨target, leads⟩ | noLink
        · cases n with
          | zero =>
            rw [FileSystem.walkWithin_zero_cons_of_link stepped leads,
              FileSystem.walkWithin_zero_cons_of_link stepped leads]
          | succ n =>
            rw [FileSystem.walkWithin_cons_of_link stepped leads,
              FileSystem.walkWithin_cons_of_link stepped leads, ← List.append_assoc,
              follow n (Nat.lt_succ_self n), List.append_assoc]
        · rw [FileSystem.walkWithin_cons_of_noLink stepped noLink,
            FileSystem.walkWithin_cons_of_noLink stepped noLink, ih]

/-- The root with the names behind it, however it is spelled. -/
theorem GoesOn.same_append (h : GoesOn root names path) (absolute : Path.isAbsolute root = true) :
    Same (root ++ Location.path names) path := by
  obtain ⟨body, whole, begins⟩ := exists_body absolute
  have pieces_eq : Path.pieces (root ++ Location.path names) =
      Path.pieces root ++ names.map String.toList := by
    rw [Path.pieces, String.toList_append, Location.toList_path h.filled, Split.pieces_append,
      Split.pieces_joined_names h.filled h.named, Path.pieces]
  constructor
  case components =>
    have isAbsolute : Path.isAbsolute (root ++ Location.path names) = true := by
      obtain ⟨cs, text⟩ := isAbsolute_iff.mp absolute
      exact isAbsolute_iff.mpr ⟨cs ++ (Location.path names).toList, by simp [text]⟩
    have front_eq : front (root ++ Location.path names) =
        (some .root, body ++ names.map String.toList) := by
      simp [front, pieces_eq, whole, isAbsolute]
    rw [h.components_eq absolute]
    simp only [Path.components, front_eq, begins]
    rw [List.filter_append, List.map_append, filter_names h.named, map_ofPiece_names h.named,
      List.append_assoc]
  case walk =>
    intro fs here
    rw [pieces_eq, h.pieces, stem, unslashed]
    split
    next last =>
      obtain ⟨front, ends⟩ := List.getLast?_eq_some_iff.mp last
      rw [ends, List.dropLast_concat, List.append_assoc]
      exact walkWithin_empty_piece fs _ here front (by simpa using h.filled)
    next => rfl

end Path

/-! ## What a container is given -/

namespace Disassembler

variable {layout : Layout} {root tool path : String} {names : List String}

/-- A path below the root is given by the names that lead there. -/
theorem containerPath_eq (h : Path.GoesOn layout.root names path)
    (absolute : Path.isAbsolute layout.root = true) :
    containerPath layout path = containerScratch ++ Location.path names := by
  rw [containerPath, Layout.relative?, h.strip?_eq absolute, Option.map_some, Option.getD_some,
    Path.components_joined_names h.named h.filled, List.map_map, Location.path, if_neg h.filled]
  rfl

end Disassembler

namespace Layout

variable {tool : String} (root : String) (isName : IsName tool)

include isName

theorem goesOn_binaryDir : Path.GoesOn root [tool, "binary"] (ofRoot root tool).binaryDir :=
  (Path.GoesOn.of_root root isName).join (show IsName "binary" by decide)

theorem goesOn_graph : Path.GoesOn root [tool, "binary", graphName] (ofRoot root tool).graph :=
  (goesOn_binaryDir root isName).join (show IsName graphName by decide)

variable {root} (absolute : Path.isAbsolute root = true)

include absolute

theorem parent?_instructionFacts :
    Path.parent? (ofRoot root tool).instructionFacts = some (ofRoot root tool).binaryDir := by
  rw [instructionFacts_ofRoot]
  exact (goesOn_binaryDir root isName).parent?_join absolute (by decide)

theorem parent?_blockFacts :
    Path.parent? (ofRoot root tool).blockFacts = some (ofRoot root tool).binaryDir := by
  rw [blockFacts_ofRoot]
  exact (goesOn_binaryDir root isName).parent?_join absolute (by decide)

end Layout

theorem RunScratch.isAbsolute_root {fs : FileSystem} {dir tool : String}
    {isolate cleanup : Bool} {draw : Draw} {r : RunScratch}
    (created : (create dir tool isolate cleanup draw fs).result = .ok r) :
    Path.isAbsolute r.layout.root = true ∧ r.layout = .ofRoot r.layout.root tool := by
  obtain ⟨base, seen⟩ := exists_base_of_create created
  have ends := create_ends seen tool isolate cleanup draw
  have absolute := FileSystem.isAbsolute_of_absolute seen
  generalize create dir tool isolate cleanup draw fs = ending at ends created
  cases ends with
  | isolated =>
    obtain rfl := Except.ok.inj created
    exact ⟨Path.isAbsolute_join _ absolute, rfl⟩
  | shared =>
    obtain rfl := Except.ok.inj created
    exact ⟨absolute, rfl⟩
  | _ => cases created

/-- Both launchers name the same files: in the container's command the scratch root is mounted by
its absolute path, and the paths below the mount, put back below the root, denote the graph and the
directory that the native command names. The directory holds both fact files. -/
theorem launchers_name_the_same_files {fs : FileSystem} {base tool : String}
    {isolate cleanup : Bool} {draw : Draw} {r : RunScratch} (isName : IsName tool)
    (created : (RunScratch.create base tool isolate cleanup draw fs).result = .ok r)
    (files : FileSystem) (owner image docker program binary : String) :
    let l := r.layout
    let graph := "/" ++ tool ++ "/binary/cfg.json"
    let dir := "/" ++ tool ++ "/binary"
    Path.isAbsolute l.root = true ∧
      Disassembler.command (.native program) owner files binary l =
        ⟨program, ["--json", l.graph, binary, "--debug-dir", l.binaryDir]⟩ ∧
      (∃ user mounted, Disassembler.command (.docker image docker) owner files binary l =
        ⟨docker, ["run", "--rm"] ++ user ++ ["-v", mounted ++ ":/binary", "-v",
          l.root ++ ":/scratch", image, "ddisasm", "--json", "/scratch" ++ graph, "/binary",
          "--debug-dir", "/scratch" ++ dir]⟩) ∧
      Path.Same (l.root ++ graph) l.graph ∧ Path.Same (l.root ++ dir) l.binaryDir ∧
      Path.parent? l.instructionFacts = some l.binaryDir ∧
      Path.parent? l.blockFacts = some l.binaryDir := by
  obtain ⟨absolute, laidOut⟩ := RunScratch.isAbsolute_root created
  have onGraph := Layout.goesOn_graph r.layout.root isName
  have onDir := Layout.goesOn_binaryDir r.layout.root isName
  have instructions := Layout.parent?_instructionFacts isName absolute
  have blocks := Layout.parent?_blockFacts isName absolute
  rw [← laidOut] at onGraph onDir instructions blocks
  have graphText : Location.path [tool, "binary", graphName] = "/" ++ tool ++ "/binary/cfg.json" :=
    String.toList_inj.mp (by simp [Location.path, graphName])
  have dirText : Location.path [tool, "binary"] = "/" ++ tool ++ "/binary" :=
    String.toList_inj.mp (by simp [Location.path])
  have graphInside := Disassembler.containerPath_eq onGraph absolute
  have dirInside := Disassembler.containerPath_eq onDir absolute
  have sameGraph := onGraph.same_append absolute
  have sameDir := onDir.same_append absolute
  rw [graphText] at graphInside sameGraph
  rw [dirText] at dirInside sameDir
  refine ⟨absolute, rfl, ?_, sameGraph, sameDir, instructions, blocks⟩
  have atBinary (path : String) :
      path ++ ":" ++ Disassembler.containerBinary = path ++ ":/binary" :=
    String.append_assoc
  have atScratch (path : String) :
      path ++ ":" ++ Disassembler.containerScratch = path ++ ":/scratch" :=
    String.append_assoc
  simp only [Disassembler.command, Disassembler.containerArguments, graphInside, dirInside,
    atBinary, atScratch]
  exact ⟨_, _, rfl⟩

/-- A relative scratch directory that goes up, with slashes at its end. -/
theorem slashed_scratch_is_mounted :
    let fs : FileSystem := ⟨["w"], [(["w"], .directory)]⟩
    let l := Layout.ofRoot "/w/.//x/..//y//" "ddisasm"
    (RunScratch.create ".//x/..//y//" "ddisasm" false true (.ofNat 0) fs).result =
        .ok ⟨l, none, true⟩ ∧
      l.graph = "/w/.//x/..//y//ddisasm/binary/cfg.json" ∧
      (Disassembler.command (.docker "image" "docker") "1:1" fs "/b" l).arguments =
        ["run", "--rm", "-v", "/b:/binary", "-v", "/w/.//x/..//y//:/scratch", "image", "ddisasm",
          "--json", "/scratch/ddisasm/binary/cfg.json", "/binary", "--debug-dir",
          "/scratch/ddisasm/binary"] ∧
      Path.Same "/w/.//x/..//y///ddisasm/binary/cfg.json" l.graph := by
  have created : (RunScratch.create ".//x/..//y//" "ddisasm" false true (.ofNat 0)
      ⟨["w"], [(["w"], .directory)]⟩).result =
        .ok ⟨.ofRoot "/w/.//x/..//y//" "ddisasm", none, true⟩ := by decide +kernel
  obtain ⟨_, _, _, sameGraph, _⟩ := launchers_name_the_same_files (by decide) created
    ⟨["w"], [(["w"], .directory)]⟩ "1:1" "image" "docker" "ddisasm" "/b"
  exact ⟨created, by decide +kernel, by decide +kernel, sameGraph⟩

end BasicBlocks
