import BasicBlocks.Proofs.FlowDocuments
import BasicBlocks.Proofs.Forms

/-!
# Configurations in both notations

What is printed of a configuration is read as that configuration in YAML and in JSON, so a file of
it can have any name. In YAML a launcher's values are read before its kind is known, as everything
they could be, and a quoted text stays a text there.
-/

namespace BasicBlocks

/-! ## Numbers -/

namespace Yaml.Plain

/-- A written number begins with a zero only if it is zero. -/
theorem writeChars_front (n : Nat) : Numeral.writeChars 10 n = ['0'] ∨
    ∃ c rest, Numeral.writeChars 10 n = c :: rest ∧ c ∈ "123456789".toList := by
  rcases Nat.eq_zero_or_pos n with rfl | positive
  · exact Or.inl (by simp [Numeral.writeChars, Numeral.digits, Numeral.digitChar])
  · obtain ⟨d, rest, nonzero, small, shape⟩ := Json.writeChars_leading positive
    refine Or.inr ⟨_, rest, shape, ?_⟩
    have all : ∀ d < 10, 0 < d → Numeral.digitChar d ∈ "123456789".toList := by decide
    exact all d small nonzero

theorem magnitude?_writeChars (n : Nat) : magnitude? (Numeral.writeChars 10 n) = some n := by
  have read : Numeral.read? 10 (Numeral.writeChars 10 n) = some n :=
    (Numeral.spells_iff_read? (by decide)).mp (Numeral.spells_writeChars (by decide) n)
  rcases writeChars_front n with zero | ⟨c, rest, shape, digit⟩
  · rw [zero] at read ⊢
    exact read
  · have others : c ≠ '0' ∧ isSign c = false := by
      have all : ∀ c ∈ "123456789".toList, c ≠ '0' ∧ isSign c = false :=
        List.forall_iff_forall_mem.mp (by decide)
      exact all c digit
    rw [shape] at read ⊢
    simp [magnitude?, hasLeadingZero, dropSign, others, read]

/-- A plain number is read as the word that it was written for. -/
theorem word?_decimal (w : Word) : word? (Numeral.decimal w.toNat) = some w := by
  obtain ⟨c, rest, shape, digit⟩ := Json.exists_digit_writeChars w.toNat
  have unsigned : c ≠ '-' ∧ c ≠ '+' := by
    have all : ∀ c ∈ "0123456789".toList, c ≠ '-' ∧ c ≠ '+' :=
      List.forall_iff_forall_mem.mp (by decide)
    exact all c digit
  have read := magnitude?_writeChars w.toNat
  have whole : integer? (Numeral.decimal w.toNat) = some (.ofNat w.toNat) := by
    rw [integer?, Numeral.decimal, String.toList_ofList]
    rw [shape] at read ⊢
    simp [unsigned, read]
  rw [word?, whole, Numeral.decimal, String.toList_ofList, shape]
  simp [unsigned, Word.ofNat?_toNat]

/-- No word is written as nothing or as null. -/
theorem not_null_of_word? {s : String} {w : Word} (h : word? s = some w) :
    (s.isEmpty || isNull s) = false := by
  rw [Bool.eq_false_iff]
  intro null
  have none : ∀ s ∈ ["", "null", "Null", "NULL", "~"], word? s = .none := by decide
  have listed : s ∈ ["", "null", "Null", "NULL", "~"] := by
    simpa [isNull] using null
  rw [none s listed] at h
  cases h

end Yaml.Plain

open Json

/-! ## Structures -/

namespace Yaml.Node

/-- Entries are found under the names of their members. -/
theorem namedEntries?_toEntries {members : List (String × Json)}
    (plain : ∀ m ∈ members, escape m.1 = m.1) {name : Node → Option String}
    (quoted : ∀ s, name (.scalar none .quoted s) = some s) :
    namedEntries? (toEntries members) name =
      some (members.map fun m => (m.1, m.2.toNode)) := by
  induction members with
  | nil => rfl
  | cons m rest ih =>
    obtain ⟨first, others⟩ := List.forall_mem_cons.mp plain
    have same : meant m.1 = m.1 := by rw [meant, unescape?_of_plain first, Option.getD_some]
    have named := ih others
    rw [namedEntries?] at named ⊢
    simp [toEntries, List.mapM_cons, quoted, same, named]

theorem entry_of_nodup {entries : List (String × Node)} (distinct : (entries.map (·.1)).Nodup)
    (name : String) : entry entries name = some (entries.lookup name) := by
  rw [entry, filter_name_eq distinct]
  cases entries.lookup name <;> rfl

/-- The fields of a structure are the entries of its mapping, as they are the members of its
object. -/
theorem fields_mapping {names : List String} {members : List (String × Json)}
    (plain : ∀ s ∈ names, escape s = s) (distinct : names.Nodup)
    (named : (members.map (·.1)).Sublist names) :
    (namedEntries? (toEntries members) asText?).bind (fun e => names.mapM (entry e)) =
      some (names.map fun name => (members.lookup name).map toNode) := by
  have unquoted : namedEntries? (toEntries members) asText? = _ :=
    namedEntries?_toEntries (fun m hm => plain m.1 (named.subset (List.mem_map_of_mem hm)))
      fun _ => rfl
  have keys : ((members.map fun m => (m.1, m.2.toNode)).map (·.1)).Nodup := by
    rw [List.map_map]
    exact distinct.sublist named
  have each := entry_of_nodup keys
  rw [unquoted, Option.bind_some]
  refine mapM_eq_some_map fun name _ => ?_
  rw [each, Table.lookup_map_value]

/-- A mapping of texts may stand where any value may. -/
theorem isValue_texts {level : Nat} (fits : level ≤ maxLevel) {members : List (String × Json)}
    (texts : ∀ m ∈ members, ∃ s, m.2 = ofText s) : isValue level (toNode (.object members)) = true := by
  have values : areEntries (level + 1) (toEntries members) = true := by
    induction members with
    | nil => rfl
    | cons m rest ih =>
      obtain ⟨⟨s, text⟩, others⟩ := List.forall_mem_cons.mp texts
      simp [toEntries, areEntries, isValue, scalarValue?, ownTag?, text, ofText, toNode, ih others]
  simp [toNode, isValue, ownTag?, fits, values]

end Yaml.Node

/-! ## Configurations -/

/-- A launcher is read from a mapping as it is from an object. -/
theorem Launcher.ofNode?_object (kind : String) {settings : List (String × Json)}
    (plain : ∀ s ∈ "kind" :: settings.map (·.1), escape s = s)
    (distinct : ("kind" :: settings.map (·.1)).Nodup)
    (texts : ∀ m ∈ settings, ∃ s, m.2 = ofText s) :
    Launcher.ofNode? (toNode (.object (("kind", ofText kind) :: settings))) =
      ofSettings? kind (.named (settings.map fun m => (m.1, asText? m.2))) := by
  have allTexts : ∀ m ∈ ("kind", ofText kind) :: settings, ∃ s, m.2 = ofText s :=
    List.forall_mem_cons.mpr ⟨⟨kind, rfl⟩, texts⟩
  have plain : ∀ m ∈ ("kind", ofText kind) :: settings, escape m.1 = m.1 :=
    fun m hm => plain m.1 (List.mem_map.mpr ⟨m, hm, rfl⟩)
  have value := Yaml.Node.isValue_texts (by decide : 2 ≤ Yaml.Node.maxLevel) allTexts
  have text : ∀ s, (ofText s).toNode = .scalar none .quoted s := fun s => by simp [ofText, toNode]
  have named : Yaml.Node.namedEntries? (toEntries (("kind", ofText kind) :: settings))
      Yaml.Node.keyName? = some (("kind", .scalar none .quoted kind) ::
        settings.map fun m => (m.1, m.2.toNode)) := by
    rw [Yaml.Node.namedEntries?_toEntries plain fun _ => rfl, List.map_cons, text]
  have keys : ("kind" :: (settings.map fun m => (m.1, m.2.toNode)).map (·.1)).Nodup := by
    rwa [List.map_map]
  have first : Yaml.Node.entry (("kind", .scalar none .quoted kind) ::
      settings.map fun m => (m.1, m.2.toNode)) "kind" =
        some (some (.scalar none .quoted kind)) := by
    rw [Yaml.Node.entry_of_nodup]
    · simp
    · exact keys
  have others := filter_others_eq keys
  have values : (settings.map fun m => (m.1, m.2.toNode)).map (fun e => (e.1, e.2.valueText?)) =
      settings.map fun m => (m.1, asText? m.2) := by
    rw [List.map_map]
    refine List.map_congr_left fun m hm => ?_
    obtain ⟨s, same⟩ := texts m hm
    rw [Function.comp_apply, same, text, (denotes_text s).read]
    simp [Yaml.Node.valueText?, Yaml.Node.scalarValue?, Yaml.Node.ownTag?]
  rw [toNode] at value ⊢
  rw [Launcher.ofNode?, value, named]
  simp [first, others, values, Yaml.Node.asText?]

/-- A launcher of texts is read from a mapping as it is from an object. -/
theorem Launcher.ofNode?_toNode (kind : String) (settings : List (String × Json))
    (plain : ∀ s ∈ "kind" :: settings.map (·.1), escape s = s)
    (distinct : ("kind" :: settings.map (·.1)).Nodup)
    (texts : ∀ m ∈ settings, ∃ s, m.2 = ofText s) :
    let j : Json := .object (("kind", ofText kind) :: settings)
    Launcher.ofNode? j.toNode = Launcher.ofJson? 2 j := by
  intro j
  rw [ofNode?_object kind plain distinct texts,
    ofJson?_object (by decide) kind plain distinct texts]

theorem Launcher.ofNode?_toJson (l : Launcher) : Launcher.ofNode? l.toJson.toNode = some l := by
  have read := (Launcher.denotes_toJson (by decide : 2 ≤ maxLevel) l).read
  rw [← read]
  cases l with
  | docker image program =>
    have plain : ∀ s ∈ ["kind", "image", "docker_bin"], escape s = s := by decide
    exact ofNode?_toNode "docker" [("image", ofText image), ("docker_bin", ofText program)] plain
      (by simp) (by simp)
  | native program =>
    have plain : ∀ s ∈ ["kind", "program"], escape s = s := by decide
    exact ofNode?_toNode "native" [("program", ofText program)] plain (by simp) (by simp)

theorem Config.ofNode?_toJson (tempDir : String) (c : Config) :
    Config.ofNode? tempDir c.toJson.toNode = some c := by
  have plain : ∀ s ∈ fieldNames, escape s = s := by decide
  have launcher := Launcher.ofNode?_toJson c.launcher
  have text : ∀ s, Yaml.Node.asText? (ofText s).toNode = some s := fun s => by
    simp [ofText, toNode, Yaml.Node.asText?]
  have truth : ∀ b : Bool, Yaml.Node.asPlain? Yaml.Plain.bool? (toNode (.bool b)) = some b := by
    decide
  have word : ∀ w : Word, Yaml.Node.asOptional? (Yaml.Node.asPlain? Yaml.Plain.word?)
      (ofWord w).toNode = some (some w) := by
    intro w
    have read := Yaml.Plain.word?_decimal w
    simp [ofWord, toNode, Yaml.Node.asOptional?, Yaml.Plain.not_null_of_word? read,
      Yaml.Node.asPlain?, read]
  have scope : ∀ s : Scope, Yaml.Node.asCase? Scope.names (ofText s.name).toNode = some s := by
    intro s
    simp [ofText, toNode, Yaml.Node.asCase?, Yaml.Node.ownTag?, Scope.lookup_name]
  obtain ⟨l, scratchDir, isolateRuns, seconds, s, cleanup⟩ := c
  rw [toJson, toNode, ofNode?]
  simp only [Option.bind_eq_bind]
  rw [← Option.bind_assoc, Yaml.Node.fields_mapping plain (by decide)]
  · cases seconds <;>
      simp [fieldNames, List.lookup_cons, orElse, launcher, text, truth, word, scope]
  · cases seconds
    · have named : ["launcher", "scratch_dir", "isolate_runs", "instruction_scope",
          "cleanup"].Sublist fieldNames := by decide
      exact named
    · exact .refl _

/-! ## Texts of configurations -/

/-- The texts of a launcher. -/
def Launcher.texts : Launcher → List String
  | .docker image program => [image, program]
  | .native program => [program]

/-- All texts of a configuration are of visible characters. -/
def Config.IsVisible (c : Config) : Prop :=
  ∀ s ∈ c.scratchDir :: c.launcher.texts, ∀ ch ∈ s.toList, Yaml.IsVisible ch

instance (c : Config) : Decidable c.IsVisible :=
  inferInstanceAs (Decidable (∀ s ∈ c.scratchDir :: c.launcher.texts, ∀ ch ∈ s.toList,
    Yaml.IsVisible ch))

/-- The names of all settings. -/
def Config.settingNames : List String :=
  ["kind", "image", "docker_bin", "program"] ++ Config.fieldNames

/-- Settings have short names. -/
theorem isFlow_settings {members : List (String × Json)}
    (named : ∀ m ∈ members, m.1 ∈ Config.settingNames) (values : ∀ m ∈ members, m.2.IsFlow) :
    (object members).IsFlow := by
  have short : ∀ name ∈ Config.settingNames,
      (∀ c ∈ name.toList, Yaml.IsVisible c) ∧ name = escape name ∧ name.toList.length ≤ 1022 := by
    decide
  exact .object (fun m hm => ⟨m.1, short m.1 (named m hm)⟩) values

theorem Launcher.isFlow_toJson {l : Launcher}
    (visible : ∀ s ∈ l.texts, ∀ c ∈ s.toList, Yaml.IsVisible c) : l.toJson.IsFlow := by
  cases l with
  | docker image program =>
    have kind : (ofText "docker").IsFlow := .text (by decide)
    have image : (ofText image).IsFlow := .text (visible image (by simp [texts]))
    have program : (ofText program).IsFlow := .text (visible program (by simp [texts]))
    exact isFlow_settings (by simp [Config.settingNames]) (by simp [kind, image, program])
  | native program =>
    have kind : (ofText "native").IsFlow := .text (by decide)
    have program : (ofText program).IsFlow := .text (visible program (by simp [texts]))
    exact isFlow_settings (by simp [Config.settingNames]) (by simp [kind, program])

theorem Config.isFlow_toJson {c : Config} (visible : c.IsVisible) : c.toJson.IsFlow := by
  obtain ⟨directory, launcher⟩ := List.forall_mem_cons.mp visible
  have launcher := Launcher.isFlow_toJson launcher
  have directory : (ofText c.scratchDir).IsFlow := .text directory
  have scope : (ofText c.scope.name).IsFlow := by
    cases c.scope <;> exact .text (by decide)
  have words : ∀ w, (ofWord w).IsFlow := fun w => .number w.toNat
  rw [toJson]
  refine isFlow_settings ?_ ?_
  · cases c.timeoutSeconds <;> simp [settingNames, fieldNames]
  · cases c.timeoutSeconds <;>
      simp [launcher, directory, scope, words, IsFlow.bool]

/-- A path tells that its file is in YAML by one of two extensions. -/
theorem Config.ofPath_eq_yaml_iff (path : String) : Notation.ofPath path = .yaml ↔
    Path.extension? path = some "yaml" ∨ Path.extension? path = some "yml" := by
  unfold Notation.ofPath
  split <;> simp_all

/-- A printed configuration is read in either notation, so it does not matter which one the name of
its file tells. -/
theorem both_notations_read_printed_configurations (c : Config) (visible : c.IsVisible) :
    ∀ text ∈ [c.toJson.compact, c.toJson.pretty, c.toJson.pretty ++ "\n"],
      (∀ tempDir form, Config.ofDocument? tempDir form text = some c) ∧
      ∀ (tempDir path : String) (fs : FileSystem), fs.read path = .ok (Utf8.encode text) →
        (Config.Notation.ofPath path = .yaml ↔
          Path.extension? path = some "yaml" ∨ Path.extension? path = some "yml") ∧
        Config.ofFile tempDir path (fs.read path) = .ok c := by
  intro text printed
  have flow := Config.isFlow_toJson visible
  have json : Json.read? text = some c.toJson := by
    have written := (c.denotes_toJson "").written
    simp only [List.mem_cons, List.not_mem_nil, or_false] at printed
    rcases printed with rfl | rfl | rfl
    · exact written.read?_compact
    · exact written.read?_pretty
    · exact written.read?_pretty_append "\n" (List.forall_mem_singleton.mpr rfl)
  have yaml : Yaml.read? text = some (some c.toJson.toNode) := by
    simp only [List.mem_cons, List.not_mem_nil, or_false] at printed
    rcases printed with rfl | rfl | rfl
    · exact flow.read? rfl isForm_compact Yaml.isSpacing_nil
        (by simp [toList_compact, compactChars])
    · exact flow.read? rfl isForm_pretty Yaml.isSpacing_nil (by simp [pretty, prettyChars])
    · exact flow.read? rfl isForm_pretty (List.forall_mem_singleton.mpr (Or.inr rfl))
        (by simp [pretty, prettyChars])
  have document : ∀ tempDir form, Config.ofDocument? tempDir form text = some c := by
    intro tempDir form
    cases form with
    | json => rw [Config.ofDocument?, json, Option.bind_some, (c.denotes_toJson tempDir).read]
    | yaml => simp only [Config.ofDocument?, yaml, Config.ofNode?_toJson]
  refine ⟨document, fun tempDir path fs held => ⟨Config.ofPath_eq_yaml_iff path, ?_⟩⟩
  rw [held]
  exact Config.ofFile_of_document (document tempDir _)

/-- A configuration whose texts look like other values, or hold quotes and backslashes. -/
def quotedConfig : Config :=
  { launcher := .docker "true" "a\"b\\c: \x7bd\x7d, # e", scratchDir := "  18446744073709551615  ",
    isolateRuns := false, timeoutSeconds := some Word.last, scope := .exhaustive, cleanup := true }

/-- Its compact form is loaded from a file in YAML and from one in JSON. -/
theorem quoted_configuration_loads :
    let bytes := Utf8.encode quotedConfig.toJson.compact
    let fs : FileSystem :=
      ⟨[], [(["c.yml"], .file bytes false), (["c.conf"], .file bytes false)]⟩
    Config.ofFile "/tmp" "c.yml" (fs.read "c.yml") = .ok quotedConfig ∧
      Config.ofFile "/tmp" "c.conf" (fs.read "c.conf") = .ok quotedConfig := by
  have held : ∀ bytes, let fs : FileSystem :=
      ⟨[], [(["c.yml"], .file bytes false), (["c.conf"], .file bytes false)]⟩
      fs.read "c.yml" = .ok bytes ∧ fs.read "c.conf" = .ok bytes := fun bytes => ⟨rfl, rfl⟩
  obtain ⟨_, loads⟩ := both_notations_read_printed_configurations quotedConfig (by decide)
    quotedConfig.toJson.compact List.mem_cons_self
  exact ⟨(loads "/tmp" "c.yml" _ (held _).1).2, (loads "/tmp" "c.conf" _ (held _).2).2⟩

end BasicBlocks
