import Mathlib.Data.List.TakeWhile
import BasicBlocks.CommandLine.Program
import BasicBlocks.Json.ConfigForm
import BasicBlocks.Json.HeaderForm
import BasicBlocks.Json.ModelForm
import BasicBlocks.Proofs.Documents
import BasicBlocks.Proofs.Tables
import BasicBlocks.Proofs.Tasks
import BasicBlocks.Proofs.Utf8

/-!
# Values in JSON

The document of a value gives the value back, after it has been printed in either form and read
again.
-/

namespace BasicBlocks

namespace Json

/-- A document that `read` takes for `a`, and that its printed forms give back. -/
structure Denotes {α : Type} (read : Json → Option α) (j : Json) (a : α) : Prop where
  written : j.IsWritten
  read : read j = some a

/-- Both printed forms of a document are read as `a`. -/
def ReadsBack {α : Type} (read : Json → Option α) (j : Json) (a : α) : Prop :=
  (read? j.compact).bind read = some a ∧ (read? j.pretty).bind read = some a

theorem Denotes.readsBack {α : Type} {read : Json → Option α} {j : Json} {a : α}
    (h : Denotes read j a) : ReadsBack read j a := by
  rw [ReadsBack, h.written.read?_compact, h.written.read?_pretty]
  exact ⟨h.read, h.read⟩

/-! ## Simple values -/

theorem denotes_text (s : String) : Denotes asText? (ofText s) s :=
  ⟨.text s, unescape?_escape s⟩

theorem denotes_bool (b : Bool) : Denotes asBool? (.bool b) b := ⟨.bool b, rfl⟩

theorem ofString_decimal (n : Nat) :
    Literal.ofString (Numeral.decimal n) = ⟨false, Numeral.writeChars 10 n, [], false, []⟩ := by
  have all := isDigit_of_mem_writeChars (n := n)
  have unsigned := takeSign_writeChars n []
  rw [List.append_nil] at unsigned
  have whole : (Numeral.writeChars 10 n).takeWhile isDigit = Numeral.writeChars 10 n :=
    List.takeWhile_eq_self_iff.mpr all
  have rest : (Numeral.writeChars 10 n).dropWhile isDigit = [] :=
    List.dropWhile_eq_nil_iff.mpr all
  simp [Literal.ofString, Numeral.decimal, unsigned, whole, rest]

theorem denotes_word (w : Word) : Denotes asWord? (ofWord w) w := by
  refine ⟨.number w.toNat, ?_⟩
  have spelled := Numeral.spells_writeChars (by decide : 2 ≤ 10) w.toNat
  simp [asWord?, ofWord, ofString_decimal, Literal.word?, Literal.isWhole,
    Numeral.readWord?_of_spells spelled (by decide)]

theorem Denotes.optional {α : Type} {read : Json → Option α} {write : α → Json}
    (each : ∀ a, Denotes read (write a) a) (some? : ∀ a, write a ≠ .null) (a : Option α) :
    Denotes (asOptional? read) (ofOptional write a) a := by
  cases a with
  | none => exact ⟨.null, rfl⟩
  | some a =>
    refine ⟨(each a).written, ?_⟩
    rw [ofOptional, asOptional?, (each a).read]
    · rfl
    · exact some? a

theorem Denotes.list {α : Type} {level : Nat} {read : Json → Option α} {write : α → Json}
    (each : ∀ a, Denotes read (write a) a) (fits : level ≤ maxLevel) (as : List α) :
    Denotes (asList? level read) (.array (as.map write)) as := by
  refine ⟨.array ?_, ?_⟩
  · intro j hj
    obtain ⟨a, _, rfl⟩ := List.mem_map.mp hj
    exact (each a).written
  · rw [asList?, if_pos fits, List.mapM_map]
    exact (mapM_eq_some_map fun a _ => (each a).read).trans (congrArg some (List.map_id _))

theorem keyWord?_decimal (w : Word) : keyWord? (Numeral.decimal w.toNat) = some w := by
  have taken := takeWhole_writeChars w.toNat endsNumber_nil
  have spelled := Numeral.spells_writeChars (by decide : 2 ≤ 10) w.toNat
  rw [List.append_nil] at taken
  rw [keyWord?, Numeral.decimal, String.toList_ofList, taken]
  exact Numeral.readWord?_of_spells spelled (by decide)

/-- Digits stand for themselves. -/
theorem escape_decimal (n : Nat) : escape (Numeral.decimal n) = Numeral.decimal n := by
  have plain : ∀ c ∈ Numeral.writeChars 10 n, escapeChar c = [c] := by
    intro c hc
    have all : "0123456789".toList.all (fun c => escapeChar c = [c]) = true := by decide
    have digit := mem_digits_of_isDigit (isDigit_of_mem_writeChars c hc)
    simpa using List.all_eq_true.mp all c digit
  rw [escape, Numeral.decimal, String.toList_ofList, escapeChars,
    List.flatMap_congr plain, List.flatMap_singleton']

theorem Denotes.table {α : Type} {level : Nat} {read : Json → Option α} {write : α → Json}
    (each : ∀ a, Denotes read (write a) a) (fits : level ≤ maxLevel) (t : Table α) :
    Denotes (asTable? level read) (ofTable write t) t := by
  refine ⟨.object ?_ ?_, ?_⟩
  · intro m hm
    obtain ⟨e, _, rfl⟩ := List.mem_map.mp hm
    exact ⟨_, (escape_decimal e.1.toNat).symm⟩
  · intro m hm
    obtain ⟨e, _, rfl⟩ := List.mem_map.mp hm
    exact (each e.2).written
  · have entries : (t.entries.map fun e => (Numeral.decimal e.1.toNat, write e.2)).mapM
        (keyedValue? read) = some t.entries := by
      rw [List.mapM_map]
      refine (mapM_eq_some_map fun e _ => ?_).trans (congrArg some (List.map_id _))
      simp [keyedValue?, keyWord?_decimal, (each e.2).read]
    rw [ofTable, asTable?, if_pos fits, entries, Option.map_some,
      Table.ofList_of_perm (List.Perm.refl _)]

theorem Denotes.case {α : Type} {level : Nat} {cases : List (String × α)} {name : String} {a : α}
    (h : cases.lookup name = some a) : Denotes (asCase? level cases) (ofText name) a := by
  refine ⟨.text name, ?_⟩
  rw [ofText, asCase?, unescape?_escape, Option.bind_some, h]

/-! ## Structures -/

theorem unescape?_of_plain {s : String} (plain : escape s = s) : unescape? s = some s := by
  conv => lhs; rw [← plain]
  exact unescape?_escape s

theorem namedMembers?_of_plain {members : List (String × Json)}
    (plain : ∀ m ∈ members, escape m.1 = m.1) : namedMembers? members = some members := by
  refine (mapM_eq_some_map fun m hm => ?_).trans (congrArg some (List.map_id _))
  rw [unescape?_of_plain (plain m hm)]
  rfl

/-- Under distinct names there is one entry of a name at most. -/
theorem filter_name_eq {α : Type} {entries : List (String × α)}
    (distinct : (entries.map (·.1)).Nodup) (name : String) :
    entries.filter (·.1 = name) = ((entries.lookup name).map (name, ·)).toList := by
  induction entries with
  | nil => rfl
  | cons e rest ih =>
    obtain ⟨key, value⟩ := e
    obtain ⟨fresh, others⟩ := List.nodup_cons.mp distinct
    by_cases same : key = name
    · have alone : rest.filter (·.1 = name) = [] := by
        rw [List.filter_eq_nil_iff]
        intro e' he' same'
        have same' : e'.1 = name := by simpa using same'
        exact fresh (List.mem_map.mpr ⟨e', he', same'.trans same.symm⟩)
      simp [same, alone]
    · have other : (name == key) = false := by simpa using Ne.symm same
      simpa [same, List.lookup_cons, other] using ih others

theorem filter_others_eq {α : Type} {name : String} {rest : List (String × α)}
    (distinct : (name :: rest.map (·.1)).Nodup) :
    rest.filter (fun e => !decide (e.1 = name)) = rest := by
  rw [List.filter_eq_self]
  intro e he
  have fresh : name ∉ rest.map (·.1) := (List.nodup_cons.mp distinct).1
  have different : e.1 ≠ name := fun same => fresh (List.mem_map.mpr ⟨e, he, same⟩)
  simpa using different

theorem member?_of_nodup {members : List (String × Json)} (distinct : (members.map (·.1)).Nodup)
    (name : String) : member? members name = some (members.lookup name) := by
  rw [member?, filter_name_eq distinct]
  cases members.lookup name <;> rfl

/-- The fields of a structure are the members of its object, if no name needs an escape. -/
theorem asFields?_object {level : Nat} {names : List String} {members : List (String × Json)}
    (fits : level ≤ maxLevel) (plain : ∀ s ∈ names, escape s = s) (distinct : names.Nodup)
    (named : (members.map (·.1)).Sublist names) :
    asFields? level names (.object members) = some (names.map (members.lookup ·)) := by
  have unescaped := namedMembers?_of_plain
    fun m hm => plain m.1 (named.subset (List.mem_map_of_mem hm))
  have each := member?_of_nodup (distinct.sublist named)
  rw [asFields?, if_pos fits, unescaped, Option.bind_eq_bind, Option.bind_some]
  exact mapM_eq_some_map fun name _ => each name

theorem isWritten_object {names : List String} {members : List (String × Json)}
    (plain : ∀ s ∈ names, escape s = s) (named : (members.map (·.1)).Sublist names)
    (values : ∀ m ∈ members, m.2.IsWritten) : (object members).IsWritten := by
  refine .object (fun m hm => ⟨m.1, ?_⟩) values
  exact (plain m.1 (named.subset (List.mem_map_of_mem hm))).symm

end Json

open Json

theorem Member.denotes_toJson {level : Nat} (fits : level ≤ maxLevel) (m : Member) :
    Denotes (Member.ofJson? level) m.toJson m := by
  have plain : ∀ s ∈ ["address", "text"], escape s = s := by decide
  refine ⟨isWritten_object plain (.refl _) ?_, ?_⟩
  · simp [(denotes_word _).written, (denotes_text _).written]
  · rw [ofJson?, toJson, asFields?_object fits plain (by decide) (.refl _)]
    simp [List.lookup_cons, (denotes_word _).read, (denotes_text _).read]

theorem Block.denotes_toJson {level : Nat} (fits : level + 2 ≤ maxLevel) (b : Block) :
    Denotes (Block.ofJson? level) b.toJson b := by
  have plain : ∀ s ∈ ["start", "members"], escape s = s := by decide
  have members := Denotes.list (Member.denotes_toJson fits) (by omega : level + 1 ≤ maxLevel)
    b.members
  refine ⟨isWritten_object plain (.refl _) ?_, ?_⟩
  · simp [(denotes_word _).written, members.written]
  · rw [ofJson?, toJson, asFields?_object (by omega) plain (by decide) (.refl _)]
    simp [List.lookup_cons, (denotes_word _).read, members.read]

theorem Reconciled.denotes_toJson (r : Reconciled) : Denotes Reconciled.ofJson? r.toJson r := by
  have plain : ∀ s ∈ ["instructions", "original_blocks"], escape s = s := by decide
  have instructions := Denotes.table denotes_text (by decide : 2 ≤ maxLevel) r.instructions
  have blocks := Denotes.table (Block.denotes_toJson (by decide : 3 + 2 ≤ maxLevel))
    (by decide : 2 ≤ maxLevel) r.blocks
  refine ⟨isWritten_object plain (.refl _) ?_, ?_⟩
  · simp [instructions.written, blocks.written]
  · rw [ofJson?, toJson, asFields?_object (by decide) plain (by decide) (.refl _)]
    simp [List.lookup_cons, instructions.read, blocks.read]

theorem Section.denotes_toJson {level : Nat} (fits : level ≤ maxLevel) (s : Section) :
    Denotes (Section.ofJson? level) s.toJson s := by
  have plain : ∀ s ∈ ["name", "address", "size", "offset"], escape s = s := by decide
  refine ⟨isWritten_object plain (.refl _) ?_, ?_⟩
  · simp [(denotes_word _).written, (denotes_text _).written]
  · rw [ofJson?, toJson, asFields?_object fits plain (by decide) (.refl _)]
    simp [List.lookup_cons, (denotes_word _).read, (denotes_text _).read]

theorem Format.lookup_name (f : Format) : Format.names.lookup f.name = some f := by
  cases f <;> decide

theorem ObjectKind.lookup_name (k : ObjectKind) : ObjectKind.names.lookup k.name = some k := by
  cases k <;> decide

theorem Scope.lookup_name (s : Scope) : Scope.names.lookup s.name = some s := by
  cases s <;> decide

theorem Header.denotes_toJson (h : Header) : Denotes Header.ofJson? h.toJson h := by
  have plain : ∀ s ∈ ["format", "kind", "is_64", "entry", "sections"], escape s = s := by decide
  have format : Denotes (asCase? 2 Format.names) _ h.format := .case (Format.lookup_name _)
  have kind : Denotes (asCase? 2 ObjectKind.names) _ h.kind := .case (ObjectKind.lookup_name _)
  have entry := Denotes.optional denotes_word (fun w => by simp [ofWord]) h.entry
  have sections := Denotes.list (Section.denotes_toJson (by decide : 3 ≤ maxLevel))
    (by decide : 2 ≤ maxLevel) h.sections
  refine ⟨isWritten_object plain (.refl _) ?_, ?_⟩
  · simp [format.written, kind.written, (denotes_bool _).written, entry.written, sections.written]
  · rw [ofJson?, toJson, asFields?_object (by decide) plain (by decide) (.refl _)]
    simp [List.lookup_cons, format.read, kind.read, (denotes_bool _).read, entry.read,
      sections.read]

/-- Objects of texts have their canonical form. -/
theorem exists_canonical_texts {level : Nat} (fits : level ≤ maxLevel)
    {members : List (String × Json)} (plain : ∀ m ∈ members, escape m.1 = m.1)
    (texts : ∀ m ∈ members, ∃ s, m.2 = ofText s) :
    ∃ j, canonical? level (.object members) = some j := by
  have named : canonicalMembers? (level + 1) members = some members := by
    induction members with
    | nil => rfl
    | cons m rest ih =>
      obtain ⟨first, others⟩ := List.forall_mem_cons.mp plain
      obtain ⟨⟨s, text⟩, otherTexts⟩ := List.forall_mem_cons.mp texts
      have value : canonical? (level + 1) m.2 = some m.2 := by
        rw [text, ofText, canonical?, unescape?_escape]
        rfl
      simp [canonicalMembers?, unescape?_of_plain first, value, ih others otherTexts]
  rw [canonical?, if_pos fits, named]
  exact ⟨_, rfl⟩

/-- A launcher is read from an object of its kind and its settings. -/
theorem Launcher.ofJson?_object {level : Nat} (fits : level ≤ maxLevel) (kind : String)
    {settings : List (String × Json)} (plain : ∀ s ∈ "kind" :: settings.map (·.1), escape s = s)
    (distinct : ("kind" :: settings.map (·.1)).Nodup)
    (texts : ∀ m ∈ settings, ∃ s, m.2 = ofText s) :
    Launcher.ofJson? level (.object (("kind", ofText kind) :: settings)) =
      ofSettings? kind (.named (settings.map fun m => (m.1, asText? m.2))) := by
  have plain : ∀ m ∈ ("kind", ofText kind) :: settings, escape m.1 = m.1 :=
    fun m hm => plain m.1 (List.mem_map.mpr ⟨m, hm, rfl⟩)
  have texts : ∀ m ∈ ("kind", ofText kind) :: settings, ∃ s, m.2 = ofText s :=
    List.forall_mem_cons.mpr ⟨⟨kind, rfl⟩, texts⟩
  obtain ⟨j, canonical⟩ := exists_canonical_texts fits plain texts
  have keys : ((("kind", ofText kind) :: settings).map (·.1)).Nodup := distinct
  have first := member?_of_nodup keys "kind"
  have others := filter_others_eq distinct
  simp [ofJson?, canonical, namedMembers?_of_plain plain, first, (denotes_text kind).read, others]

theorem Launcher.denotes_toJson {level : Nat} (fits : level ≤ maxLevel) (l : Launcher) :
    Denotes (Launcher.ofJson? level) l.toJson l := by
  cases l with
  | docker image program =>
    have plain : ∀ s ∈ ["kind", "image", "docker_bin"], escape s = s := by decide
    refine ⟨isWritten_object plain (.refl _) ?_, ?_⟩
    · simp [(denotes_text _).written]
    · rw [toJson, ofJson?_object fits "docker"]
      · simp [ofSettings?, Settings.fields?, textOr, (denotes_text _).read]
      · exact plain
      · simp
      · simp
  | native program =>
    have plain : ∀ s ∈ ["kind", "program"], escape s = s := by decide
    refine ⟨isWritten_object plain (.refl _) ?_, ?_⟩
    · simp [(denotes_text _).written]
    · rw [toJson, ofJson?_object fits "native"]
      · simp [ofSettings?, Settings.fields?, (denotes_text _).read]
      · exact plain
      · simp
      · simp

theorem Config.denotes_toJson (tempDir : String) (c : Config) :
    Denotes (Config.ofJson? tempDir) c.toJson c := by
  have plain : ∀ s ∈ fieldNames, escape s = s := by decide
  have launcher := Launcher.denotes_toJson (by decide : 2 ≤ maxLevel) c.launcher
  have scope : Denotes (asCase? 2 Scope.names) _ c.scope := .case (Scope.lookup_name _)
  have timeout := Denotes.optional denotes_word (fun w => by simp [ofWord]) c.timeoutSeconds
  obtain ⟨l, scratchDir, isolateRuns, seconds, s, cleanup⟩ := c
  cases seconds with
  | none =>
    have named : ["launcher", "scratch_dir", "isolate_runs", "instruction_scope",
        "cleanup"].Sublist fieldNames := by decide
    refine ⟨isWritten_object plain named ?_, ?_⟩
    · simp [launcher.written, scope.written, (denotes_text _).written, (denotes_bool _).written]
    · rw [ofJson?, toJson, asFields?_object (by decide) plain (by decide)]
      · simp [fieldNames, List.lookup_cons, orDefault, launcher.read, scope.read,
          (denotes_text _).read, (denotes_bool _).read]
      · exact named
  | some seconds =>
    refine ⟨isWritten_object plain (.refl _) ?_, ?_⟩
    · simp [launcher.written, scope.written, (denotes_text _).written, (denotes_bool _).written,
        (denotes_word _).written]
    · rw [ofJson?, toJson, asFields?_object (by decide) plain (by decide)]
      · have given : asOptional? asWord? (ofWord seconds) = some (some seconds) := timeout.read
        simp [fieldNames, List.lookup_cons, orDefault, launcher.read, scope.read,
          (denotes_text _).read, (denotes_bool _).read, given]
      · exact .refl _

/-! ## Printed configurations -/

/-- A file gives what its text means in the notation that its path tells. -/
theorem Config.ofFile_of_document {tempDir path text : String} {c : Config}
    (h : ofDocument? tempDir (.ofPath path) text = some c) :
    Config.ofFile tempDir path (.ok (Utf8.encode text)) = .ok c := by
  have decoded := Utf8.decode_eq_ok_iff.mpr (Eq.refl (Utf8.encode text))
  simp only [ofFile, decoded, h]

/-- A document that ends with a new line gives its configuration when it is loaded. -/
theorem Config.ofFile_printed {path : String} (json : Notation.ofPath path = .json)
    (tempDir : String) (c : Config) :
    Config.ofFile tempDir path (.ok (Utf8.encode (c.toJson.pretty ++ "\n"))) = .ok c := by
  have read := (c.denotes_toJson tempDir).written.read?_pretty_append "\n"
    (List.forall_mem_singleton.mpr rfl)
  apply ofFile_of_document
  rw [json, ofDocument?, read]
  exact (c.denotes_toJson tempDir).read

theorem Program.result_showConfigCommand (env : Environment) (path : Option String)
    (fs : FileSystem) :
    (showConfigCommand env path fs).result =
      (config env fs path).map fun c => ⟨c.toJson.pretty ++ "\n", none⟩ := by
  rw [showConfigCommand]
  cases loaded : config env fs path with
  | error fault => rw [Task.tell_bind_of_error loaded]; rfl
  | ok c => rw [Task.tell_bind_of_ok loaded]; rfl

/-- Reading undoes printing: for every value that is written in JSON, in both forms. What is printed
of a configuration is a file that gives the configuration again. -/
theorem printed_values_read_back :
    (∀ r : Reconciled, ReadsBack Reconciled.ofJson? r.toJson r) ∧
    (∀ b : Block, ReadsBack (Block.ofJson? 1) b.toJson b) ∧
    (∀ h : Header, ReadsBack Header.ofJson? h.toJson h) ∧
    (∀ l : Launcher, ReadsBack (Launcher.ofJson? 1) l.toJson l) ∧
    (∀ (tempDir : String) (c : Config), ReadsBack (Config.ofJson? tempDir) c.toJson c) ∧
    ∀ (env : Environment) (arguments : List String) (i : Invocation) (path : Option String)
      (fs : FileSystem),
      Arguments.read arguments = .options i → i.action = .showConfig path →
      (Program.run env arguments fs).code = 0 →
      ∃ c, Program.config env fs path = .ok c ∧
        ∀ (tempDir file : String) (later : FileSystem), Config.Notation.ofPath file = .json →
          later.read file = .ok (Utf8.encode (Program.run env arguments fs).output) →
          Config.ofFile tempDir file (later.read file) = .ok c := by
  refine ⟨fun r => r.denotes_toJson.readsBack,
    fun b => (Block.denotes_toJson (by decide) b).readsBack, fun h => h.denotes_toJson.readsBack,
    fun l => (Launcher.denotes_toJson (by decide) l).readsBack,
    fun tempDir c => (c.denotes_toJson tempDir).readsBack, ?_⟩
  intro env arguments i path fs options showing printed
  have result := Program.result_showConfigCommand env path fs
  have performed : Program.perform env i.action fs = Program.showConfigCommand env path fs := by
    rw [showing, Program.perform]
  cases config : Program.config env fs path with
  | error f =>
    rw [config] at result
    simp [Program.run, options, performed, result, Except.map] at printed
  | ok c =>
    rw [config] at result
    have output : (Program.run env arguments fs).output = c.toJson.pretty ++ "\n" := by
      simp [Program.run, options, performed, result, Except.map]
    refine ⟨c, rfl, fun tempDir file later json held => ?_⟩
    rw [held, output]
    exact Config.ofFile_printed json tempDir c

/-- A machine on which no program can be started. -/
def bareEnvironment (disassembler : Option String) : Environment where
  disassembler := disassembler
  logFilter := none
  temporary := none
  now := "now"
  draw := .ofNat 0
  host := { owner := "0:0", start := fun _ _ => .error .notFound }

/-- A program's name with a quote in it, once printed, is loaded as it was. -/
theorem shown_config_loads :
    let env := bareEnvironment (some "dd\"asm\\\n")
    let shown := Program.run env ["show-config"] ⟨[], []⟩
    let saved : FileSystem := ⟨[], [(["saved.json"], .file (Utf8.encode shown.output) false)]⟩
    Config.ofFile "/tmp" "saved.json" (saved.read "saved.json") =
      .ok { Config.default "/tmp" with launcher := .native "dd\"asm\\\n" } := by
  intro env shown saved
  obtain ⟨_, _, _, _, _, loads⟩ := printed_values_read_back
  obtain ⟨c, config, loaded⟩ := loads env ["show-config"] ⟨false, .showConfig none⟩ none ⟨[], []⟩
    (by decide +kernel) rfl (by decide +kernel)
  have same : c = { Config.default "/tmp" with launcher := .native "dd\"asm\\\n" } :=
    Except.ok.inj (config.symm.trans (by decide +kernel))
  rw [← same]
  exact loaded "/tmp" "saved.json" saved (by decide +kernel) (by decide +kernel)

end BasicBlocks
