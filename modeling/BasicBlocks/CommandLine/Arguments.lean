import BasicBlocks.CommandLine.Help
import BasicBlocks.Config

/-!
# Command-line arguments

A command and its options. Every option is given at most once; its value is the next argument, which
must not look like an option, or what follows an equals sign. Flags have no value. An argument list
that is refused is not explained further.
-/

namespace BasicBlocks

open CommandLine (OptionForm CommandForm logFlag)

/-- What a command prints of itself instead of being run. -/
inductive Notice
  | version
  | help
  | helpOn (command : CommandForm) (full : Bool)
  | helpOnHelp
  deriving DecidableEq, Repr

structure ExtractOptions where
  binary : String
  config : Option String
  overrides : Config.Overrides
  out : Option String
  deriving DecidableEq, Repr

structure ReconcileOptions where
  instructions : String
  blocks : String
  binary : Option String
  scope : Scope
  out : Option String
  deriving DecidableEq, Repr

inductive Action
  | extract (options : ExtractOptions)
  | reconcile (options : ReconcileOptions)
  | header (binary : String) (asJson : Bool)
  | showConfig (config : Option String)
  deriving DecidableEq, Repr

structure Invocation where
  logAsJson : Bool
  action : Action
  deriving DecidableEq, Repr

namespace Arguments

/-- Options as they are given: values by name, and flags. -/
structure Given where
  values : List (String × String)
  flags : List String
  deriving DecidableEq, Repr

namespace Given

def value? (g : Given) (name : String) : Option String := g.values.lookup name

def has (g : Given) (flag : String) : Bool := g.flags.contains flag

def mentions (g : Given) (name : String) : Bool :=
  g.flags.contains name || (g.value? name).isSome

end Given

/-- An argument that cannot be a value: a dash and more. -/
def looksLikeOption (argument : String) : Bool :=
  match argument.toList with
  | '-' :: _ :: _ => true
  | _ => false

/-- The number of seconds of a time limit. -/
def seconds? (text : String) : Option Word := Numeral.readWord? 10 text.toList

/-- Whether a value can be one of the option. -/
def isValueOf (name value : String) : Bool := name ≠ "timeout" || (seconds? value).isSome

/-- An option as it is written: its name, and its value if that follows an equals sign. -/
def option? (argument : String) : Option (String × Option String) :=
  match argument.toList with
  | '-' :: '-' :: rest =>
    let name := rest.takeWhile (· ≠ '=')
    match rest.drop name.length with
    | [] => some (String.ofList name, none)
    | _ :: value => some (String.ofList name, some (String.ofList value))
  | _ => none

/-- What arguments amount to: options, a notice that is asked for, or nothing that can be used. -/
inductive Reading (α : Type)
  | options (a : α)
  | notice (n : Notice)
  | refused
  deriving DecidableEq, Repr

/-- Whether an argument asks for help, and for how much of it. -/
def helpAskedFor? (argument : String) : Option Bool :=
  if argument = "--help" then some true
  else if argument.toList.take 2 = ['-', 'h'] then some false
  else none

def readOptions (command : CommandForm) : Given → List String → Reading Given
  | g, [] => .options g
  | g, argument :: rest =>
    match helpAskedFor? argument, option? argument with
    | some full, _ => .notice (.helpOn command full)
    | none, none => .refused
    | none, some ("", none) => if rest.isEmpty then .options g else .refused
    | none, some (name, value) =>
      if g.mentions name then .refused
      else
        match (command.option? name).map (·.takesValue), value, rest with
        | some false, none, rest =>
          readOptions command { g with flags := name :: g.flags } rest
        | some true, some value, rest =>
          if isValueOf name value then
            readOptions command { g with values := (name, value) :: g.values } rest
          else .refused
        | some true, none, value :: rest =>
          if !looksLikeOption value && isValueOf name value then
            readOptions command { g with values := (name, value) :: g.values } rest
          else .refused
        | _, _, _ => .refused

def extractAction? (g : Given) : Option Action := do
  let overrides : Config.Overrides :=
    { scratchDir := g.value? "scratch"
      timeoutSeconds := (g.value? "timeout").bind seconds?
      exhaustive := g.has "exhaustive" }
  return .extract
    { binary := ← g.value? "binary", config := g.value? "config", overrides
      out := g.value? "out" }

def reconcileAction? (g : Given) : Option Action := do
  return .reconcile
    { instructions := ← g.value? "instructions", blocks := ← g.value? "blocks"
      binary := g.value? "binary"
      scope := if g.has "exhaustive" then .exhaustive else .cfg
      out := g.value? "out" }

def headerAction? (g : Given) : Option Action := do
  return .header (← g.value? "binary") (g.has "json")

def showConfigAction? (g : Given) : Option Action := some (.showConfig (g.value? "config"))

/-- What the options of each command have to give. -/
def actions : List (CommandForm × (Given → Option Action)) :=
  [(.extract, extractAction?), (.reconcile, reconcileAction?), (.header, headerAction?),
    (.showConfig, showConfigAction?)]

def action? (command : CommandForm) (g : Given) : Option Action :=
  (actions.lookup command).bind (· g)

def command? (name : String) : Option CommandForm := CommandForm.all.find? (·.name = name)

def readCommand (logAsJson : Bool) (command : CommandForm) (rest : List String) :
    Reading Invocation :=
  match readOptions command ⟨[], []⟩ rest with
  | .notice n => .notice n
  | .refused => .refused
  | .options g =>
    match action? command g with
    | none => .refused
    | some action => .options ⟨logAsJson || g.has logFlag.name, action⟩

/-- The command that prints help names at most one other. -/
def readTopics : List String → Reading Invocation
  | [] => .notice .help
  | [topic] =>
    match command? topic with
    | some command => .notice (.helpOn command true)
    | none => if topic = CommandLine.Help.helpCommand.term then .notice .helpOnHelp else .refused
  | _ => .refused

def readFrom (logAsJson : Bool) : List String → Reading Invocation
  | [] => .refused
  | argument :: rest =>
    match helpAskedFor? argument, command? argument with
    | some _, _ => .notice .help
    | none, some command => readCommand logAsJson command rest
    | none, none =>
      if argument = "--version" || argument.toList.take 2 = ['-', 'V'] then .notice .version
      else if argument = "--" ++ logFlag.name then
        if logAsJson then .refused else readFrom true rest
      else if argument = CommandLine.Help.helpCommand.term then readTopics rest
      else .refused

/-- The command of an argument list. -/
def read (arguments : List String) : Reading Invocation := readFrom false arguments

end Arguments
end BasicBlocks
