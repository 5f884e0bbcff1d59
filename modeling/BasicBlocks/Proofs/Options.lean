import Mathlib.Data.List.TakeWhile
import BasicBlocks.CommandLine.Arguments

/-!
# Options in any order

The options of a command come in any order, the value of one as an argument of its own or behind an
equals sign. What is read of them depends only on which are given.
-/

namespace BasicBlocks.Arguments

open CommandLine (CommandForm logFlag)

/-- An option that is given. -/
inductive Choice
  | value (name value : String)
  | flag (name : String)
  deriving DecidableEq, Repr

def Choice.name : Choice → String
  | .value name _ => name
  | .flag name => name

/-- An option as arguments. -/
inductive Spelled : Choice → List String → Prop
  | flag (name : String) : Spelled (.flag name) ["--" ++ name]
  | joined (name value : String) : Spelled (.value name value) ["--" ++ name ++ "=" ++ value]
  | apart {value : String} (name : String) (plain : looksLikeOption value = false) :
      Spelled (.value name value) ["--" ++ name, value]

/-- Arguments that give options in this order. -/
inductive Writes : List Choice → List String → Prop
  | nil : Writes [] []
  | cons {c : Choice} {front arguments : List String} {choices : List Choice}
      (first : Spelled c front) (others : Writes choices arguments) :
      Writes (c :: choices) (front ++ arguments)

/-- A name that can be told from a value behind it and from the option that asks for help. -/
def IsOptionName (name : String) : Prop := name ≠ "" ∧ name ≠ "help" ∧ '=' ∉ name.toList

instance (name : String) : Decidable (IsOptionName name) :=
  inferInstanceAs (Decidable (_ ∧ _ ∧ _))

/-- The command has such an option. -/
def Choice.IsOf (command : CommandForm) : Choice → Prop
  | .value name text =>
    (command.option? name).map (·.takesValue) = some true ∧ isValueOf name text = true
  | .flag name => (command.option? name).map (·.takesValue) = some false

def Given.add (g : Given) : Choice → Given
  | .value name text => { g with values := (name, text) :: g.values }
  | .flag name => { g with flags := name :: g.flags }

variable {command : CommandForm} {g : Given} {name value text : String} {rest : List String}

/-! ## One option -/

theorem helpAskedFor?_dashed (notHelp : text ≠ "help") : helpAskedFor? ("--" ++ text) = none := by
  have other : "--" ++ text ≠ "--help" := fun same =>
    notHelp (by simpa [← String.toList_inj] using same)
  simp [helpAskedFor?, other]

/-- The name ends before the equals sign, if there is one, and the value is what follows. -/
theorem option?_dashed (isName : IsOptionName name) {argument : String} {tail : List Char}
    (written : argument.toList = '-' :: '-' :: (name.toList ++ tail))
    (ends : ∀ c ∈ tail.head?, c = '=') :
    option? argument = some (name, tail.head?.map fun _ => String.ofList tail.tail) := by
  have plain : ∀ c ∈ name.toList, decide (c ≠ '=') = true := by
    intro c hc
    have different : c ≠ '=' := fun same => isName.2.2 (same ▸ hc)
    simpa using different
  have none : tail.takeWhile (· ≠ '=') = [] := by
    cases tail with
    | nil => rfl
    | cons c tail => simp [ends c rfl]
  have whole : (name.toList ++ tail).takeWhile (· ≠ '=') = name.toList := by
    rw [List.takeWhile_append_of_pos plain, none, List.append_nil]
  rw [option?, written]
  simp only [whole, List.drop_left, String.ofList_toList]
  cases tail <;> rfl

theorem option?_flag (isName : IsOptionName name) : option? ("--" ++ name) = some (name, none) := by
  have written : ("--" ++ name).toList = '-' :: '-' :: (name.toList ++ []) := by simp
  exact option?_dashed isName written (fun c none => nomatch none)

theorem option?_joined (isName : IsOptionName name) (value : String) :
    option? ("--" ++ name ++ "=" ++ value) = some (name, some value) := by
  have written : ("--" ++ name ++ "=" ++ value).toList =
      '-' :: '-' :: (name.toList ++ '=' :: value.toList) := by simp
  rw [option?_dashed isName written (by simp)]
  simp

theorem readOptions_flag (isName : IsOptionName name) (fresh : g.mentions name = false)
    (isOf : (Choice.flag name).IsOf command) :
    readOptions command g (("--" ++ name) :: rest) =
      readOptions command (g.add (.flag name)) rest := by
  have takes : (command.option? name).map (·.takesValue) = some false := isOf
  rw [readOptions, helpAskedFor?_dashed isName.2.1, option?_flag isName]
  split
  next asked => cases asked
  next read => cases read
  -- Two dashes alone end the options, so the name must not be empty.
  next read => exact absurd (congrArg Prod.fst (Option.some.inj read)) isName.1
  next read =>
    cases read
    simp [fresh, takes, Given.add]

theorem readOptions_joined (isName : IsOptionName name) (fresh : g.mentions name = false)
    (isOf : (Choice.value name value).IsOf command) :
    readOptions command g (("--" ++ name ++ "=" ++ value) :: rest) =
      readOptions command (g.add (.value name value)) rest := by
  obtain ⟨takes, fits⟩ := isOf
  have notHelp : name ++ "=" ++ value ≠ "help" := by
    intro same
    have marked : '=' ∈ "help".toList := by simp [← same]
    exact absurd marked (by decide)
  have asked : helpAskedFor? ("--" ++ name ++ "=" ++ value) = none := by
    have silent := helpAskedFor?_dashed notHelp
    rwa [← String.append_assoc, ← String.append_assoc] at silent
  rw [readOptions, asked, option?_joined isName]
  split
  next asked => cases asked
  next read => cases read
  next read => cases read
  next read =>
    cases read
    simp [fresh, takes, fits, Given.add]

theorem readOptions_apart (isName : IsOptionName name) (fresh : g.mentions name = false)
    (isOf : (Choice.value name value).IsOf command) (plain : looksLikeOption value = false) :
    readOptions command g (("--" ++ name) :: value :: rest) =
      readOptions command (g.add (.value name value)) rest := by
  obtain ⟨takes, fits⟩ := isOf
  rw [readOptions, helpAskedFor?_dashed isName.2.1, option?_flag isName]
  split
  next asked => cases asked
  next read => cases read
  next read => exact absurd (congrArg Prod.fst (Option.some.inj read)) isName.1
  next read =>
    cases read
    simp [fresh, takes, fits, plain, Given.add]

theorem readOptions_spelled {c : Choice} {front : List String} (spelled : Spelled c front)
    (isName : IsOptionName c.name) (fresh : g.mentions c.name = false) (isOf : c.IsOf command) :
    readOptions command g (front ++ rest) = readOptions command (g.add c) rest := by
  cases spelled with
  | flag => exact readOptions_flag isName fresh isOf
  | joined => exact readOptions_joined isName fresh isOf
  | apart _ plain => exact readOptions_apart isName fresh isOf plain

/-! ## All options -/

/-- What is given once options are read: what was given before, and they. -/
structure Adds (choices : List Choice) (before after : Given) : Prop where
  value : ∀ name v, after.value? name = some v ↔
    before.value? name = some v ∨ .value name v ∈ choices
  flag : ∀ name, after.has name = true ↔ before.has name = true ∨ .flag name ∈ choices

theorem mentions_eq_false_iff :
    g.mentions name = false ↔ g.has name = false ∧ g.value? name = none := by
  simp [Given.mentions, Given.has]

theorem mentions_add (c : Choice) (fresh : g.mentions name = false) (other : name ≠ c.name) :
    (g.add c).mentions name = false := by
  obtain ⟨noFlag, noValue⟩ := mentions_eq_false_iff.mp fresh
  cases c with
  | value own text =>
    have different : (name == own) = false := beq_false_of_ne other
    exact mentions_eq_false_iff.mpr ⟨noFlag, by
      rw [Given.add, Given.value?, List.lookup_cons, different]
      exact noValue⟩
  | flag own =>
    have different : name ≠ own := other
    have among : name ∉ g.flags := by simpa [Given.has] using noFlag
    exact mentions_eq_false_iff.mpr ⟨by simp [Given.add, Given.has, different, among], noValue⟩

theorem Adds.cons {c : Choice} {choices : List Choice} {after : Given}
    (fresh : g.mentions c.name = false) (h : Adds choices (g.add c) after) :
    Adds (c :: choices) g after := by
  constructor
  case value =>
    intro name v
    rw [h.value, List.mem_cons, ← or_assoc]
    refine or_congr_left ?_
    cases c with
    | flag own => simp [Given.add, Given.value?]
    | value own text =>
      have none : g.value? own = none := (mentions_eq_false_iff.mp fresh).2
      rw [Given.add, Given.value?, List.lookup_cons]
      by_cases same : name = own
      · simp [same, none, eq_comm]
      · have different : (name == own) = false := beq_false_of_ne same
        simp [same, different, Given.value?]
  case flag =>
    intro name
    rw [h.flag, List.mem_cons, ← or_assoc]
    refine or_congr_left ?_
    cases c with
    | value own text => simp [Given.add, Given.has]
    | flag own => simp [Given.add, Given.has, or_comm]

/-- Options of the command that are given once, and have not been given before. -/
structure Fits (command : CommandForm) (g : Given) (choices : List Choice) : Prop where
  names : ∀ c ∈ choices, IsOptionName c.name
  isOf : ∀ c ∈ choices, c.IsOf command
  once : (choices.map Choice.name).Nodup
  fresh : ∀ c ∈ choices, g.mentions c.name = false

theorem Fits.tail {c : Choice} {choices : List Choice} (h : Fits command g (c :: choices)) :
    Fits command (g.add c) choices where
  names d hd := h.names d (List.mem_cons_of_mem c hd)
  isOf d hd := h.isOf d (List.mem_cons_of_mem c hd)
  once := (List.nodup_cons.mp h.once).2
  fresh d hd := by
    refine mentions_add c (h.fresh d (List.mem_cons_of_mem c hd)) fun same => ?_
    exact (List.nodup_cons.mp h.once).1 (same ▸ List.mem_map_of_mem hd)

theorem readOptions_of_writes {choices : List Choice} {arguments : List String}
    (writes : Writes choices arguments) (fits : Fits command g choices) :
    ∃ after, readOptions command g arguments = .options after ∧ Adds choices g after := by
  induction writes generalizing g with
  | nil => exact ⟨g, by rw [readOptions], by simp, by simp⟩
  | cons first _ ih =>
    have fresh := fits.fresh _ List.mem_cons_self
    obtain ⟨after, read, adds⟩ := ih fits.tail
    rw [readOptions_spelled first (fits.names _ List.mem_cons_self) fresh
      (fits.isOf _ List.mem_cons_self)]
    exact ⟨after, read, adds.cons fresh⟩

/-! ## Options of an extraction -/

/-- The options that say what an extraction is of, and how it is set up. -/
def extractChoices (binary : String) (config scratch timeout out : Option String)
    (exhaustive : Bool) : List Choice :=
  .value "binary" binary :: (config.map (.value "config")).toList
    ++ (scratch.map (.value "scratch")).toList ++ (timeout.map (.value "timeout")).toList
    ++ (out.map (.value "out")).toList ++ if exhaustive then [.flag "exhaustive"] else []

section

variable {binary : String} {config scratch timeout out : Option String} {exhaustive : Bool}
  (number : ∀ t ∈ timeout, (seconds? t).isSome)

include number

theorem isOf_extractChoices : ∀ c ∈ extractChoices binary config scratch timeout out exhaustive,
    IsOptionName c.name ∧ c.IsOf .extract := by
  have known : ∀ name ∈ ["binary", "config", "scratch", "timeout", "out"], IsOptionName name ∧
      (CommandForm.extract.option? name).map (·.takesValue) = some true := by decide
  have valued (name v : String) (hname : name ∈ ["binary", "config", "scratch", "timeout", "out"])
      (hv : isValueOf name v = true) :
      IsOptionName name ∧ (Choice.value name v).IsOf .extract :=
    ⟨(known name hname).1, (known name hname).2, hv⟩
  intro c hc
  simp only [extractChoices, List.cons_append, List.mem_cons, List.mem_append,
    Option.mem_toList, Option.map_eq_some_iff] at hc
  rcases hc with rfl | (((⟨v, _, rfl⟩ | ⟨v, _, rfl⟩) | ⟨v, given, rfl⟩) | ⟨v, _, rfl⟩) | flag
  · exact valued "binary" binary (by simp) rfl
  · exact valued "config" v (by simp) rfl
  · exact valued "scratch" v (by simp) rfl
  · exact valued "timeout" v (by simp) (by simpa [isValueOf] using number v given)
  · exact valued "out" v (by simp) rfl
  · cases exhaustive with
    | false => cases flag
    | true =>
      obtain rfl := List.mem_singleton.mp flag
      exact ⟨show IsOptionName "exhaustive" by decide, show Option.map _ _ = _ by decide⟩

theorem fits_extractChoices {choices : List Choice}
    (order : choices.Perm (extractChoices binary config scratch timeout out exhaustive)) :
    Fits .extract ⟨[], []⟩ choices where
  names c hc := (isOf_extractChoices number c (order.mem_iff.mp hc)).1
  isOf c hc := (isOf_extractChoices number c (order.mem_iff.mp hc)).2
  once := by
    have one (name : String) (v : Option String) :
        ((v.map (Choice.value name)).toList.map Choice.name).Sublist [name] := by
      cases v <;> simp [Choice.name]
    have last : ((if exhaustive then [Choice.flag "exhaustive"] else []).map Choice.name).Sublist
        ["exhaustive"] := by
      cases exhaustive <;> simp [Choice.name]
    refine (order.map Choice.name).nodup_iff.mpr ?_
    have among := (List.Sublist.refl ["binary"]).append (one "config" config)
    have among := (among.append (one "scratch" scratch)).append (one "timeout" timeout)
    have among := (among.append (one "out" out)).append last
    rw [extractChoices, List.map_append, List.map_append, List.map_append, List.map_append,
      List.map_cons]
    exact among.nodup (by decide)
  fresh _ _ := rfl

/-- The options of an extraction are read in any order. -/
theorem read_extract {choices : List Choice} {arguments : List String}
    (order : choices.Perm (extractChoices binary config scratch timeout out exhaustive))
    (writes : Writes choices arguments) :
    Arguments.read ("extract" :: arguments) = .options ⟨false, .extract
      ⟨binary, config, ⟨scratch, timeout.bind seconds?, exhaustive⟩, out⟩⟩ := by
  obtain ⟨given, read, adds⟩ := readOptions_of_writes writes (fits_extractChoices number order)
  have value (name : String) (v : String) : given.value? name = some v ↔
      .value name v ∈ extractChoices binary config scratch timeout out exhaustive := by
    rw [adds.value, ← order.mem_iff]
    simp [Given.value?]
  have flag (name : String) : given.has name = true ↔
      .flag name ∈ extractChoices binary config scratch timeout out exhaustive := by
    rw [adds.flag, ← order.mem_iff]
    simp [Given.has]
  have binaryOf : given.value? "binary" = some binary := (value _ _).mpr List.mem_cons_self
  have configOf : given.value? "config" = config := by
    ext v
    simp [value, extractChoices]
  have scratchOf : given.value? "scratch" = scratch := by
    ext v
    simp [value, extractChoices]
  have timeoutOf : given.value? "timeout" = timeout := by
    ext v
    simp [value, extractChoices]
  have outOf : given.value? "out" = out := by
    ext v
    simp [value, extractChoices]
  have exhaustiveOf : given.has "exhaustive" = exhaustive := by
    rw [Bool.eq_iff_iff, flag]
    cases exhaustive <;> simp [extractChoices]
  have quiet : given.has logFlag.name = false := by
    rw [← Bool.not_eq_true, flag]
    cases exhaustive <;> simp [extractChoices, logFlag, CommandLine.OptionForm.flag]
  have action : action? .extract given = some (.extract
      ⟨binary, config, ⟨scratch, timeout.bind seconds?, exhaustive⟩, out⟩) := by
    have own : actions.lookup .extract = some extractAction? := List.lookup_cons_self
    rw [action?, own, Option.bind_some, extractAction?, binaryOf, configOf, scratchOf, timeoutOf,
      outOf, exhaustiveOf]
    rfl
  have command : command? "extract" = some .extract := by decide
  have asked : helpAskedFor? "extract" = none := by decide
  rw [Arguments.read, readFrom, asked, command]
  simp only [readCommand, read, action, quiet, Bool.or_false]

end

end BasicBlocks.Arguments
