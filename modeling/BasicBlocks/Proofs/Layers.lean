import BasicBlocks.Proofs.Deliveries
import BasicBlocks.Proofs.Forms
import BasicBlocks.Proofs.Options

/-!
# Layers of settings

The command line, the environment and a file each give some of the settings, and the defaults give
all of them. A run takes every setting from the highest layer that gives it. In a file, a setting is
given by the one member of its name, wherever that stands among the others.
-/

namespace BasicBlocks

open Json

/-! ## Settings -/

inductive Setting
  | launcher
  | scratchDir
  | isolateRuns
  | timeoutSeconds
  | scope
  | cleanup
  deriving DecidableEq, Repr

namespace Setting

/-- What the setting is set to. That there is no time limit can be set too. -/
def Value : Setting → Type
  | .launcher => Launcher
  | .scratchDir => String
  | .isolateRuns => Bool
  | .timeoutSeconds => Option Word
  | .scope => Scope
  | .cleanup => Bool

def name : Setting → String
  | .launcher => "launcher"
  | .scratchDir => "scratch_dir"
  | .isolateRuns => "isolate_runs"
  | .timeoutSeconds => "timeout_secs"
  | .scope => "instruction_scope"
  | .cleanup => "cleanup"

/-- The settings in the order in which they are listed. -/
def all : List Setting := [launcher, scratchDir, isolateRuns, timeoutSeconds, scope, cleanup]

end Setting

def Config.value (c : Config) : (s : Setting) → s.Value
  | .launcher => c.launcher
  | .scratchDir => c.scratchDir
  | .isolateRuns => c.isolateRuns
  | .timeoutSeconds => c.timeoutSeconds
  | .scope => c.scope
  | .cleanup => c.cleanup

theorem Config.eq_of_value {c c' : Config} (h : ∀ s, c'.value s = c.value s) : c' = c := by
  obtain ⟨launcher, scratchDir, isolateRuns, timeoutSeconds, scope, cleanup⟩ := c
  cases c'
  congr 1
  · exact h .launcher
  · exact h .scratchDir
  · exact h .isolateRuns
  · exact h .timeoutSeconds
  · exact h .scope
  · exact h .cleanup

/-- Some of the settings, each with its value. -/
abbrev Layer := (s : Setting) → Option s.Value

namespace Layer

def empty : Layer := fun _ => none

def defaults (tempDir : String) : Layer := fun s => some ((Config.default tempDir).value s)

/-- The environment gives the launcher alone, and as a whole. -/
def environment (program : Option String) : Layer
  | .launcher => program.map Launcher.native
  | _ => none

/-- The command line gives the scope only to widen it. -/
def commandLine (o : Config.Overrides) : Layer
  | .scratchDir => o.scratchDir
  | .timeoutSeconds => o.timeoutSeconds.map some
  | .scope => if o.exhaustive then some Scope.exhaustive else none
  | _ => none

/-- A setting in the first layer that gives it. -/
def first (layers : List Layer) (s : Setting) : Option s.Value := layers.findSome? (· s)

/-- What the layer gives is as it gives it; all else is as before. -/
def Changes (layer : Layer) (before after : Config) : Prop :=
  ∀ s, after.value s = (layer s).getD (before.value s)

variable {layer : Layer} {before after : Config}

theorem changes_empty (c : Config) : empty.Changes c c := fun _ => rfl

theorem changes_environment (c : Config) (program : Option String) :
    (environment program).Changes c (c.withEnvironment program) := by
  cases program with
  | none => exact fun s => by cases s <;> rfl
  | some program => exact fun s => by cases s <;> rfl

theorem changes_commandLine (c : Config) (o : Config.Overrides) :
    (commandLine o).Changes c (c.withOverrides o) := by
  intro s
  obtain ⟨scratchDir, timeout, exhaustive⟩ := o
  cases s with
  | timeoutSeconds => cases timeout <;> rfl
  | scope => cases exhaustive <;> rfl
  | _ => rfl

theorem Changes.first_cons {layers : List Layer} (h : layer.Changes before after)
    (below : ∀ s, first layers s = some (before.value s)) (s : Setting) :
    first (layer :: layers) s = some (after.value s) := by
  rw [first, List.findSome?_cons, h s]
  cases layer s with
  | none => exact below s
  | some value => rfl

end Layer

/-! ## Members of an object -/

namespace Json

/-- The values of all members of a name. -/
def valuesOf (members : List (String × Json)) (name : String) : List Json :=
  (members.filter (unescape? ·.1 = some name)).map (·.2)

/-- There is no value, and nothing is given, or there is one, and it spells what is given. -/
inductive GivesOnce {α : Type} (Spells : Json → α → Prop) : List Json → Option α → Prop
  | nothing : GivesOnce Spells [] none
  | value {j : Json} {a : α} (h : Spells j a) : GivesOnce Spells [j] (some a)

def SpellsText (j : Json) (s : String) : Prop := asText? j = some s

/-- The same value, or the same members in another order. -/
inductive Shuffled : Json → Json → Prop
  | refl (j : Json) : Shuffled j j
  | object {members others : List (String × Json)} (h : members.Perm others) :
      Shuffled (.object members) (.object others)

/-- The same members in another order, their values shuffled too. -/
def Rearranged (members others : List (String × Json)) : Prop :=
  ∃ middle, List.Forall₂ (fun m m' => m.1 = m'.1 ∧ Shuffled m.2 m'.2) members middle ∧
    middle.Perm others

variable {α : Type} {Spells : Json → α → Prop} {read : Json → Option α} {given : Option α}
  {members others named : List (String × Json)} {name : String}

theorem isSome_of_plain (plain : ∀ m ∈ members, escape m.1 = m.1) :
    ∀ m ∈ members, (unescape? m.1).isSome := by
  intro m hm
  rw [unescape?_of_plain (plain m hm), Option.isSome_some]

theorem exists_named (names : ∀ m ∈ members, (unescape? m.1).isSome) :
    ∃ named, namedMembers? members = some named := by
  induction members with
  | nil => exact ⟨[], rfl⟩
  | cons m rest ih =>
    obtain ⟨first, others⟩ := List.forall_mem_cons.mp names
    obtain ⟨name, unescaped⟩ := Option.isSome_iff_exists.mp first
    obtain ⟨named, same⟩ := ih others
    rw [namedMembers?] at same ⊢
    exact ⟨(name, m.2) :: named, by simp [List.mapM_cons, unescaped, same]⟩

theorem valuesOf_eq (names : namedMembers? members = some named) (name : String) :
    valuesOf members name = (named.filter (·.1 = name)).map (·.2) := by
  induction members generalizing named with
  | nil =>
    obtain rfl := Option.some.inj names
    rfl
  | cons m rest ih =>
    simp only [namedMembers?, List.mapM_cons, bind, Option.bind_eq_some_iff,
      Option.map_eq_some_iff] at names
    obtain ⟨_, ⟨own, unescaped, rfl⟩, later, same, joined⟩ := names
    obtain rfl : (own, m.2) :: later = named := Option.some.inj joined
    have tail := ih same
    rw [valuesOf] at tail ⊢
    by_cases found : own = name
    · simp [unescaped, found, tail]
    · simp [unescaped, found, tail]

/-- The one member of a name, if there is one, with what is read of its value. -/
theorem GivesOnce.exists_member (names : namedMembers? members = some named)
    (reads : ∀ j a, Spells j a → read j = some a)
    (gives : GivesOnce Spells (valuesOf members name) given) :
    ∃ value : Option Json, named.filter (·.1 = name) = (value.map (name, ·)).toList ∧
      value.map read = given.map some := by
  rw [valuesOf_eq names] at gives
  generalize found : named.filter (·.1 = name) = entries at gives
  match entries, gives with
  | [], .nothing => exact ⟨none, rfl, rfl⟩
  | [(own, j)], .value h =>
    have own : own = name := by
      have mem : (own, j) ∈ named.filter (·.1 = name) := found ▸ List.mem_singleton_self _
      simpa using (List.mem_filter.mp mem).2
    exact ⟨some j, by simp [own], by simp [reads _ _ h]⟩

theorem member?_eq {value : Option Json}
    (found : named.filter (·.1 = name) = (value.map (name, ·)).toList) :
    member? named name = some value := by
  rw [member?, found]
  cases value <;> rfl

theorem orDefault_eq {value : Option Json} (reads : value.map read = given.map some)
    (fallback : α) : Config.orDefault fallback read value = some (given.getD fallback) := by
  cases value with
  | none =>
    cases given with
    | none => rfl
    | some a => cases reads
  | some j =>
    cases given with
    | none => cases reads
    | some a => exact Option.some.inj reads

theorem GivesOnce.field (names : namedMembers? members = some named)
    (reads : ∀ j a, Spells j a → read j = some a)
    (gives : GivesOnce Spells (valuesOf members name) given) (fallback : α) :
    ∃ value, member? named name = some value ∧
      Config.orDefault fallback read value = some (given.getD fallback) := by
  obtain ⟨value, found, same⟩ := gives.exists_member names reads
  exact ⟨value, member?_eq found, orDefault_eq same fallback⟩

/-! ## Another order -/

theorem GivesOnce.perm {values values' : List Json} (h : values.Perm values')
    (gives : GivesOnce Spells values given) : GivesOnce Spells values' given := by
  cases gives with
  | nothing =>
    obtain rfl := List.nil_perm.mp h
    exact .nothing
  | value spells =>
    obtain rfl := List.singleton_perm.mp h
    exact .value spells

theorem valuesOf_perm (h : members.Perm others) (name : String) :
    (valuesOf members name).Perm (valuesOf others name) :=
  (h.filter _).map _

theorem valuesOf_shuffled
    (h : List.Forall₂ (fun m m' => m.1 = m'.1 ∧ Shuffled m.2 m'.2) members others)
    (name : String) : List.Forall₂ Shuffled (valuesOf members name) (valuesOf others name) := by
  induction h with
  | nil => exact .nil
  | @cons m m' rest rest' same _ ih =>
    rw [valuesOf] at ih ⊢
    rw [valuesOf, List.filter_cons, List.filter_cons, ← same.1]
    split
    · exact .cons same.2 ih
    · exact ih

theorem GivesOnce.rearranged (stable : ∀ j j' a, Shuffled j j' → Spells j a → Spells j' a)
    (h : Rearranged members others) (gives : GivesOnce Spells (valuesOf members name) given) :
    GivesOnce Spells (valuesOf others name) given := by
  obtain ⟨middle, shuffled, perm⟩ := h
  refine GivesOnce.perm (valuesOf_perm perm name) ?_
  have values := valuesOf_shuffled shuffled name
  generalize valuesOf members name = before at gives values
  generalize valuesOf middle name = after at values
  cases gives with
  | nothing =>
    cases values
    exact .nothing
  | value spells =>
    cases values with
    | cons same none =>
      cases none
      exact .value (stable _ _ _ same spells)

theorem Rearranged.names (h : Rearranged members others)
    (names : ∀ m ∈ members, (unescape? m.1).isSome) : ∀ m ∈ others, (unescape? m.1).isSome := by
  obtain ⟨middle, shuffled, perm⟩ := h
  have kept : ∀ m ∈ middle, (unescape? m.1).isSome := by
    clear perm
    induction shuffled with
    | nil => exact fun _ none => nomatch none
    | cons same _ ih =>
      obtain ⟨first, rest⟩ := List.forall_mem_cons.mp names
      exact List.forall_mem_cons.mpr ⟨same.1 ▸ first, ih rest⟩
  exact fun m hm => kept m (perm.mem_iff.mpr hm)

end Json

/-! ## Launchers -/

namespace Launcher

/-- All names and values in an object mean something, whether or not they are asked for. -/
def IsReadable (members : List (String × Json)) : Prop :=
  ∀ m ∈ members, (unescape? m.1).isSome ∧ (canonical? 3 m.2).isSome

/-- What a launcher is spelled as: its kind and its settings by name, among other members, or in
order. A container's settings have defaults. -/
inductive Spells : Json → Launcher → Prop
  | docker {members : List (String × Json)} {image program : Option String}
      (readable : IsReadable members)
      (spelled : GivesOnce SpellsText (valuesOf members "kind") (some "docker"))
      (givesImage : GivesOnce SpellsText (valuesOf members "image") image)
      (givesProgram : GivesOnce SpellsText (valuesOf members "docker_bin") program) :
      Spells (.object members)
        (.docker (image.getD defaultImage) (program.getD defaultDocker))
  | native {members : List (String × Json)} {program : String} (readable : IsReadable members)
      (spelled : GivesOnce SpellsText (valuesOf members "kind") (some "native"))
      (gives : GivesOnce SpellsText (valuesOf members "program") (some program)) :
      Spells (.object members) (.native program)
  | dockerInOrder {kind : Json} {settings : List Json} {texts : List String}
      (spelled : SpellsText kind "docker") (each : List.Forall₂ SpellsText settings texts)
      (short : texts.length ≤ 2) :
      Spells (.array (kind :: settings))
        (.docker (texts[0]?.getD defaultImage) (texts[1]?.getD defaultDocker))
  | nativeInOrder {kind setting : Json} {program : String} (spelled : SpellsText kind "native")
      (text : SpellsText setting program) : Spells (.array [kind, setting]) (.native program)

theorem exists_canonicalMembers {members : List (String × Json)} (readable : IsReadable members) :
    ∃ named, canonicalMembers? 3 members = some named := by
  induction members with
  | nil => exact ⟨[], rfl⟩
  | cons m rest ih =>
    obtain ⟨⟨named, meant⟩, others⟩ := List.forall_mem_cons.mp readable
    obtain ⟨name, unescaped⟩ := Option.isSome_iff_exists.mp named
    obtain ⟨value, canonical⟩ := Option.isSome_iff_exists.mp meant
    obtain ⟨later, same⟩ := ih others
    exact ⟨(name, value) :: later, by simp [canonicalMembers?, unescaped, canonical, same]⟩

theorem canonical?_of_spellsText {j : Json} {s : String} (h : SpellsText j s) (level : Nat) :
    canonical? level j = some (ofText s) := by
  cases j with
  | text raw =>
    have unescaped : unescape? raw = some s := h
    rw [canonical?, unescaped, Option.map_some]
  | _ => cases h

theorem canonicalElements?_of_spellsText {js : List Json} {texts : List String}
    (h : List.Forall₂ SpellsText js texts) (level : Nat) :
    canonicalElements? level js = some (texts.map ofText) := by
  induction h with
  | nil => rfl
  | cons first _ ih => simp [canonicalElements?, canonical?_of_spellsText first, ih]

theorem map_asText?_of_spellsText {js : List Json} {texts : List String}
    (h : List.Forall₂ SpellsText js texts) : js.map asText? = texts.map some := by
  induction h with
  | nil => rfl
  | cons first _ ih => rw [List.map_cons, List.map_cons, ih, first]

section

variable {members named : List (String × Json)} {kind : String}

/-- An object is read by its kind, from its other members. -/
theorem ofJson?_members (readable : IsReadable members)
    (names : namedMembers? members = some named)
    (spelled : GivesOnce SpellsText (valuesOf members "kind") (some kind)) :
    ofJson? 2 (.object members) =
      ofSettings? kind
        (.named ((named.filter (·.1 ≠ "kind")).map fun m => (m.1, asText? m.2))) := by
  obtain ⟨_, meant⟩ := exists_canonicalMembers readable
  obtain ⟨value, found, same⟩ := spelled.exists_member names fun _ _ h => h
  obtain ⟨j, rfl, text⟩ : ∃ j, value = some j ∧ asText? j = some kind := by
    cases value with
    | none => cases same
    | some j => exact ⟨j, rfl, Option.some.inj same⟩
  simp [ofJson?, canonical?, maxLevel, meant, names, member?_eq found, text]

/-- The entries of a setting among the members. -/
theorem filter_settings {setting : String} {given : Option String}
    (names : namedMembers? members = some named) (other : setting ≠ "kind")
    (gives : GivesOnce SpellsText (valuesOf members setting) given) :
    ((named.filter (·.1 ≠ "kind")).map fun m => (m.1, asText? m.2)).filter (·.1 = setting) =
      (given.map fun s => (setting, some s)).toList := by
  obtain ⟨value, found, same⟩ := gives.exists_member names fun _ _ h => h
  -- The kind is taken out first, which leaves the entries of every other name.
  have own : (named.filter (·.1 ≠ "kind")).filter (·.1 = setting) =
      named.filter (·.1 = setting) := by
    rw [List.filter_filter]
    refine List.filter_congr fun m _ => ?_
    by_cases found : m.1 = setting
    · simp [found, other]
    · simp [found]
  rw [List.filter_map]
  have settings := congrArg (List.map fun m => (m.1, asText? m.2)) (own.trans found)
  refine settings.trans ?_
  cases value with
  | none =>
    cases given with
    | none => rfl
    | some s => cases same
  | some j =>
    cases given with
    | none => cases same
    | some s => simp [Option.some.inj same]

end

theorem ofJson?_of_spells {j : Json} {l : Launcher} (h : Spells j l) : ofJson? 2 j = some l := by
  cases h with
  | @docker _ image program readable spelled givesImage givesProgram =>
    obtain ⟨named, names⟩ := exists_named fun m hm => (readable m hm).1
    rw [ofJson?_members readable names spelled, ofSettings?, if_pos rfl]
    simp only [Settings.fields?, List.mapM_cons, List.mapM_nil,
      filter_settings names (by decide) givesImage, filter_settings names (by decide) givesProgram]
    cases image <;> cases program <;> rfl
  | native readable spelled gives =>
    obtain ⟨named, names⟩ := exists_named fun m hm => (readable m hm).1
    rw [ofJson?_members readable names spelled, ofSettings?, if_neg (by decide), if_pos rfl]
    simp only [Settings.fields?, List.mapM_cons, List.mapM_nil,
      filter_settings names (by decide) gives]
    rfl
  | @dockerInOrder kind settings texts spelled each short =>
    have elements := canonicalElements?_of_spellsText (each.cons spelled) 3
    have meant : asText? kind = some "docker" := spelled
    simp only [ofJson?, canonical?, maxLevel, elements, meant, map_asText?_of_spellsText each]
    rcases texts with _ | ⟨first, _ | ⟨second, _ | ⟨third, more⟩⟩⟩
    · rfl
    · rfl
    · rfl
    · simp at short
  | nativeInOrder spelled text =>
    have elements := canonicalElements?_of_spellsText (.cons spelled (.cons text .nil)) 3
    have meant := map_asText?_of_spellsText (.cons text .nil)
    simp only [ofJson?, canonical?, maxLevel, elements, meant, show asText? _ = _ from spelled]
    rfl

theorem spells_of_shuffled {j j' : Json} {l : Launcher} (same : Shuffled j j') (h : Spells j l) :
    Spells j' l := by
  cases same with
  | refl => exact h
  | object perm =>
    have values := valuesOf_perm perm
    cases h with
    | docker readable spelled givesImage givesProgram =>
      exact .docker (fun m hm => readable m (perm.mem_iff.mpr hm)) (spelled.perm (values _))
        (givesImage.perm (values _)) (givesProgram.perm (values _))
    | native readable spelled gives =>
      exact .native (fun m hm => readable m (perm.mem_iff.mpr hm)) (spelled.perm (values _))
        (gives.perm (values _))

end Launcher

/-! ## Files of settings -/

namespace Setting

/-- What spells a value of the setting. A time limit is written in decimal, and null where there is
none; a scope is its name, or an object of its name and null. -/
def Spells : (s : Setting) → Json → s.Value → Prop
  | .launcher, j, value => Launcher.Spells j value
  | .scratchDir, j, path => SpellsText j path
  | .isolateRuns, j, value => j = .bool value
  | .timeoutSeconds, j, limit => j = ofOptional ofWord limit
  | .scope, j, value =>
    SpellsText j (Scope.name value) ∨
      ∃ raw, unescape? raw = some (Scope.name value) ∧ j = .object [(raw, .null)]
  | .cleanup, j, value => j = .bool value

def read? : (s : Setting) → Json → Option s.Value
  | .launcher => Launcher.ofJson? 2
  | .scratchDir => asText?
  | .isolateRuns => asBool?
  | .timeoutSeconds => asOptional? asWord?
  | .scope => asCase? 2 Scope.names
  | .cleanup => asBool?

theorem read?_of_spells (s : Setting) (j : Json) (value : s.Value) (h : s.Spells j value) :
    s.read? j = some value := by
  cases s with
  | launcher => exact Launcher.ofJson?_of_spells h
  | scratchDir => exact h
  | isolateRuns =>
    obtain rfl : j = .bool value := h
    rfl
  | timeoutSeconds =>
    obtain rfl : j = ofOptional ofWord value := h
    exact (Denotes.optional denotes_word (fun w => by simp [ofWord]) value).read
  | scope =>
    have meant : ∀ raw, unescape? raw = some (Scope.name value) →
        (unescape? raw).bind (Scope.names.lookup ·) = some value := by
      intro raw named
      rw [named]
      exact Scope.lookup_name value
    rcases h with text | ⟨raw, named, rfl⟩
    · cases j with
      | text raw => exact meant raw text
      | _ => cases text
    · exact meant raw named
  | cleanup =>
    obtain rfl : j = .bool value := h
    rfl

theorem spells_of_shuffled (s : Setting) (j j' : Json) (value : s.Value) (same : Shuffled j j')
    (h : s.Spells j value) : s.Spells j' value := by
  cases same with
  | refl => exact h
  | object perm =>
    cases s with
    | launcher => exact Launcher.spells_of_shuffled (.object perm) h
    | timeoutSeconds => cases value <;> cases h
    | scope =>
      rcases h with text | ⟨raw, named, single⟩
      · cases text
      · obtain rfl := Json.object.inj single
        obtain rfl := List.singleton_perm.mp perm
        exact Or.inr ⟨raw, named, rfl⟩
    | _ => cases h

end Setting

/-- Every member has a name, and a setting that is given stands once under its own, spelled as it
should be. What stands under other names does not matter. -/
structure Layer.IsSetBy (layer : Layer) (members : List (String × Json)) : Prop where
  names : ∀ m ∈ members, (unescape? m.1).isSome
  settings : ∀ s : Setting, GivesOnce s.Spells (valuesOf members s.name) (layer s)

theorem Layer.IsSetBy.rearranged {layer : Layer} {members others : List (String × Json)}
    (sets : layer.IsSetBy members) (h : Rearranged members others) : layer.IsSetBy others :=
  ⟨h.names sets.names, fun s => (sets.settings s).rearranged s.spells_of_shuffled h⟩

theorem Config.exists_ofJson? {layer : Layer} {members : List (String × Json)}
    (sets : layer.IsSetBy members) (tempDir : String) :
    ∃ c, Config.ofJson? tempDir (.object members) = some c ∧
      layer.Changes (.default tempDir) c := by
  obtain ⟨named, names⟩ := exists_named sets.names
  -- What is found under a setting's name is read as what the layer gives, or else as its default.
  have field := fun s : Setting =>
    (sets.settings s).field names s.read?_of_spells ((Config.default tempDir).value s)
  choose values found read using field
  have each : ∀ ss : List Setting,
      (ss.map Setting.name).mapM (member? named) = some (ss.map values) := by
    intro ss
    rw [List.mapM_map]
    exact mapM_eq_some_map fun s _ => found s
  have fields : asFields? 1 fieldNames (.object members) = some (Setting.all.map values) := by
    rw [asFields?, if_pos (by decide), names]
    exact each Setting.all
  have launcher : orDefault .default (Launcher.ofJson? 2) (values .launcher) = _ := read .launcher
  have scratchDir : orDefault (defaultScratchDir tempDir) asText? (values .scratchDir) = _ :=
    read .scratchDir
  have isolateRuns : orDefault true asBool? (values .isolateRuns) = _ := read .isolateRuns
  have timeout : orDefault none (asOptional? asWord?) (values .timeoutSeconds) = _ :=
    read .timeoutSeconds
  have scope : orDefault .cfg (asCase? 2 Scope.names) (values .scope) = _ := read .scope
  have cleanup : orDefault true asBool? (values .cleanup) = _ := read .cleanup
  rw [ofJson?, fields]
  simp only [Setting.all, List.map_cons, List.map_nil, Option.bind_eq_bind, Option.bind_some,
    launcher, scratchDir, isolateRuns, timeout, scope, cleanup]
  exact ⟨_, rfl, fun s => by cases s <;> rfl⟩

/-! ## The configuration of a run -/

namespace Program

/-- The path tells that the file is in JSON, and it holds an object of these members. -/
def IsJsonFile (fs : FileSystem) (path : String) (members : List (String × Json)) : Prop :=
  Config.Notation.ofPath path = .json ∧
    ∃ text, fs.read path = .ok (Utf8.encode text) ∧ Json.read? text = some (.object members)

/-- What the file of an extraction gives, if there is one. -/
inductive FileGives (fs : FileSystem) : Option String → Layer → Prop
  | nothing : FileGives fs none .empty
  | settings {path : String} {members : List (String × Json)} {layer : Layer}
      (file : IsJsonFile fs path members) (sets : layer.IsSetBy members) :
      FileGives fs (some path) layer

/-- An extraction with a configuration, once its binary has been read. -/
def extractWith (env : Environment) (c : Config) (out : Option String) (path sha256 : String)
    (h : Header) : Task CommandFault Delivery := do
  let model ← ((extractor env c).extract env.now env.draw path h).mapFault (.extraction path)
  deliver (Report.toJson { binary := path, sha256, model }) out

variable {env : Environment} {fs : FileSystem} {o : ExtractOptions} {h : Header} {sha256 : String}

theorem perform_extract {c : Config} {path : String} (resolved : resolve fs o.binary = .ok path)
    (loaded : config env fs o.config = .ok c) (present : fs.isFile path = true)
    (read : header fs path = .ok h) (hashed : fs.digest path = .ok sha256) :
    perform env (.extract o) fs =
      extractWith env (c.withOverrides o.overrides) o.out path sha256 h fs := by
  have read' : (header fs path).mapError CommandFault.header = .ok h := by rw [read]; rfl
  have hashed' : (fs.digest path).mapError CommandFault.digest = .ok sha256 := by rw [hashed]; rfl
  rw [perform, extractCommand, Task.tell_bind_of_ok resolved, Task.ask_bind, if_pos present,
    Task.tell_bind_of_ok loaded, Task.tell_bind_of_ok read', Task.tell_bind_of_ok hashed']
  rfl

theorem ofFile_of_isJsonFile {tempDir path : String} {members : List (String × Json)} {c : Config}
    (file : IsJsonFile fs path members)
    (read : Config.ofJson? tempDir (.object members) = some c) :
    Config.ofFile tempDir path (fs.read path) = .ok c := by
  obtain ⟨json, text, held, document⟩ := file
  rw [held]
  apply Config.ofFile_of_document
  rw [json, Config.ofDocument?, document, Option.bind_some, read]

theorem config_of_fileGives {path : Option String} {file : Layer} (gives : FileGives fs path file)
    (env : Environment) : ∃ loaded, file.Changes (.default env.tempDir) loaded ∧
      config env fs path = .ok (loaded.withEnvironment env.disassembler) := by
  cases gives with
  | nothing => exact ⟨.default env.tempDir, Layer.changes_empty _, rfl⟩
  | settings file sets =>
    obtain ⟨loaded, read, changes⟩ := Config.exists_ofJson? sets env.tempDir
    refine ⟨loaded, changes, ?_⟩
    simp [config, ofFile_of_isJsonFile file read, Except.mapError, bind, Except.bind, pure,
      Except.pure]

theorem config_of_rearranged {other : FileSystem} {path path' : String}
    {members others : List (String × Json)} {layer : Layer} (file : IsJsonFile fs path members)
    (sets : layer.IsSetBy members) (file' : IsJsonFile other path' others)
    (h : Rearranged members others) :
    config env other (some path') = config env fs (some path) := by
  obtain ⟨c, changes, read⟩ := config_of_fileGives (.settings file sets) env
  obtain ⟨c', changes', read'⟩ := config_of_fileGives (.settings file' (sets.rearranged h)) env
  have same : ∀ s, c'.value s = c.value s := fun s => (changes' s).trans (changes s).symm
  rw [read, read', Config.eq_of_value same]

/-- An extraction takes each of its settings from the highest layer that gives it: the command line,
the environment, the file, the default. It does not matter in which order the file's members stand,
nor in which order the options are given. -/
theorem settings_come_from_the_highest_layer (env : Environment) :
    (∀ (fs : FileSystem) (o : ExtractOptions) (file : Layer), FileGives fs o.config file →
      ∃ loaded : Config,
        let named := loaded.withEnvironment env.disassembler
        let c := named.withOverrides o.overrides
        config env fs o.config = .ok named ∧
          file.Changes (.default env.tempDir) loaded ∧
          (Layer.environment env.disassembler).Changes loaded named ∧
          (Layer.commandLine o.overrides).Changes named c ∧
          (∀ s, Layer.first [.commandLine o.overrides, .environment env.disassembler, file,
            .defaults env.tempDir] s = some (c.value s)) ∧
          ∀ path h sha256, resolve fs o.binary = .ok path → fs.isFile path = true →
            header fs path = .ok h → fs.digest path = .ok sha256 →
            perform env (.extract o) fs = extractWith env c o.out path sha256 h fs) ∧
    (∀ (fs other : FileSystem) (path path' : String) (members others : List (String × Json))
      (layer : Layer), IsJsonFile fs path members → layer.IsSetBy members →
      IsJsonFile other path' others → Rearranged members others →
      config env other (some path') = config env fs (some path)) ∧
    ∀ (binary : String) (file scratch timeout out : Option String) (exhaustive : Bool)
      (choices : List Arguments.Choice) (arguments : List String),
      (∀ t ∈ timeout, (Arguments.seconds? t).isSome) →
      choices.Perm (Arguments.extractChoices binary file scratch timeout out exhaustive) →
      Arguments.Writes choices arguments →
      Arguments.read ("extract" :: arguments) = .options ⟨false, .extract
        ⟨binary, file, ⟨scratch, timeout.bind Arguments.seconds?, exhaustive⟩, out⟩⟩ := by
  refine ⟨fun fs o file gives => ?_,
    fun _ _ _ _ _ _ _ file sets file' h => config_of_rearranged file sets file' h,
    fun _ _ _ _ _ _ _ _ number order writes => Arguments.read_extract number order writes⟩
  obtain ⟨loaded, fromFile, read⟩ := config_of_fileGives gives env
  have fromEnvironment := Layer.changes_environment loaded env.disassembler
  have fromCommandLine :=
    Layer.changes_commandLine (loaded.withEnvironment env.disassembler) o.overrides
  refine ⟨loaded, read, fromFile, fromEnvironment, fromCommandLine, ?_,
    fun path h sha256 resolved present whole hashed =>
      perform_extract resolved read present whole hashed⟩
  have defaults : ∀ s, Layer.first [.defaults env.tempDir] s =
      some ((Config.default env.tempDir).value s) := fun _ => rfl
  exact fromCommandLine.first_cons (fromEnvironment.first_cons (fromFile.first_cons defaults))

/-- Members that set three of the settings, the launcher without its image. -/
def partialMembers : List (String × Json) :=
  [("isolate_runs", .bool false),
    ("launcher", .object [("kind", ofText "docker"), ("docker_bin", ofText "podman")]),
    ("note", .array [.null]), ("timeout_secs", ofWord 600)]

def reorderedMembers : List (String × Json) :=
  [("timeout_secs", ofWord 600), ("note", .array [.null]),
    ("launcher", .object [("docker_bin", ofText "podman"), ("kind", ofText "docker")]),
    ("isolate_runs", .bool false)]

def partialLayer : Layer
  | .launcher => some (Launcher.docker Launcher.defaultImage "podman")
  | .isolateRuns => some false
  | .timeoutSeconds => some (some 600)
  | _ => none

/-- A binary, and the members in two orders. -/
def partialFiles : FileSystem where
  current := []
  entries :=
    [(["a.out"], .file bareExecutable true),
      (["c.json"], .file (Utf8.encode (Json.object partialMembers).compact) false),
      (["d.json"], .file (Utf8.encode (Json.object reorderedMembers).compact) false)]

/-- A container is of the usual image where none is named. -/
theorem spells_container (program : String) :
    Launcher.Spells (.object [("kind", ofText "docker"), ("docker_bin", ofText program)])
      (.docker Launcher.defaultImage program) := by
  have short : ∀ s ∈ ["kind", "docker_bin"], escape s = s := by decide
  have plain : ∀ m ∈ [("kind", ofText "docker"), ("docker_bin", ofText program)],
      escape m.1 = m.1 := fun m hm => short m.1 (List.mem_map_of_mem hm)
  have values := valuesOf_eq (namedMembers?_of_plain plain)
  have text : ∀ s, SpellsText (ofText s) s := fun s => (denotes_text s).read
  have canonical : ∀ m ∈ [("kind", ofText "docker"), ("docker_bin", ofText program)],
      (canonical? 3 m.2).isSome := by
    simp [Launcher.canonical?_of_spellsText (text _)]
  have readable : Launcher.IsReadable
      [("kind", ofText "docker"), ("docker_bin", ofText program)] :=
    fun m hm => ⟨isSome_of_plain plain m hm, canonical m hm⟩
  have spelled : Launcher.Spells _ (.docker ((none : Option String).getD Launcher.defaultImage)
      ((some program).getD Launcher.defaultDocker)) :=
    .docker readable (values "kind" ▸ .value (text "docker")) (values "image" ▸ .nothing)
      (values "docker_bin" ▸ .value (text program))
  exact spelled

theorem isSetBy_partialMembers : partialLayer.IsSetBy partialMembers := by
  have plain : ∀ m ∈ partialMembers, escape m.1 = m.1 := by decide
  refine ⟨isSome_of_plain plain, fun s => ?_⟩
  rw [valuesOf_eq (namedMembers?_of_plain plain)]
  cases s with
  | launcher => exact .value (spells_container "podman")
  | isolateRuns => exact .value rfl
  | timeoutSeconds => exact .value rfl
  | _ => exact .nothing

theorem rearranged_partialMembers : Rearranged partialMembers reorderedMembers := by
  refine ⟨reorderedMembers.reverse, ?_, List.reverse_perm _⟩
  exact .cons ⟨rfl, .refl _⟩ (.cons ⟨rfl, .object (.swap _ _ _)⟩ (.cons ⟨rfl, .refl _⟩
    (.cons ⟨rfl, .refl _⟩ .nil)))

theorem partial_file_is_completed :
    let o : ExtractOptions := ⟨"a.out", some "c.json", ⟨some "s", none, true⟩, none⟩
    let c : Config :=
      ⟨.docker Launcher.defaultImage "podman", "s", false, some 600, .exhaustive, true⟩
    (∃ h sha256, perform idleEnvironment (.extract o) partialFiles =
      extractWith idleEnvironment c none "/a.out" sha256 h partialFiles) ∧
    config idleEnvironment partialFiles (some "d.json") =
      config idleEnvironment partialFiles (some "c.json") ∧
    Arguments.read ["extract", "--exhaustive", "--scratch=s", "--config", "c.json", "--binary",
      "a.out"] = .options ⟨false, .extract o⟩ := by
  intro o c
  have document {j : Json} (lexed : lex j.compact = some j.tokens) :
      Json.read? j.compact = some j := by
    rw [Json.read?, lexed, Option.bind_some, ofTokens?_tokens]
  have file : IsJsonFile partialFiles "c.json" partialMembers :=
    ⟨by decide, _, rfl, document (by decide +kernel)⟩
  have reordered : IsJsonFile partialFiles "d.json" reorderedMembers :=
    ⟨by decide, _, rfl, document (by decide +kernel)⟩
  have writes : Arguments.Writes
      [.flag "exhaustive", .value "scratch" "s", .value "config" "c.json", .value "binary" "a.out"]
      ["--exhaustive", "--scratch=s", "--config", "c.json", "--binary", "a.out"] :=
    .cons (.flag "exhaustive") (.cons (.joined "scratch" "s") (.cons (.apart "config" (by decide))
      (.cons (.apart "binary" (by decide)) .nil)))
  obtain ⟨layered, anyOrder, options⟩ := settings_come_from_the_highest_layer idleEnvironment
  refine ⟨?_, anyOrder partialFiles partialFiles "c.json" "d.json" _ _ _ file isSetBy_partialMembers
    reordered rearranged_partialMembers, options "a.out" (some "c.json") (some "s") none none true
    _ _ (by simp) (by decide) writes⟩
  obtain ⟨loaded, _, _, _, _, highest, runs⟩ :=
    layered partialFiles o partialLayer (.settings file isSetBy_partialMembers)
  have same : (loaded.withEnvironment none).withOverrides o.overrides = c :=
    Config.eq_of_value fun s => Option.some.inj ((highest s).symm.trans (by cases s <;> rfl))
  have resolved : resolve partialFiles o.binary = .ok "/a.out" := by decide +kernel
  have read : header partialFiles "/a.out" = .ok (.ofImage bareExecutable) := rfl
  have hashed : partialFiles.digest "/a.out" = .ok (Sha256.hexDigest bareExecutable) := rfl
  refine ⟨.ofImage bareExecutable, Sha256.hexDigest bareExecutable, ?_⟩
  rw [← same]
  exact runs _ _ _ resolved (by decide +kernel) read hashed

end Program
end BasicBlocks
