import BasicBlocks.CommandLine.Option

/-!
# Help

What the program and its commands say of themselves. Options stand in one column and what they do
in another; where the second column would not fit a line of a hundred, and always in full help, what
an option does stands below it.
-/

namespace BasicBlocks.CommandLine.Help

/-- A thing that help lists, with what it says about it. -/
structure Row where
  term : String
  about : String
  deriving DecidableEq, Repr

def lineWidth : Nat := 100

def spaces (n : Nat) : String := String.ofList (List.replicate n ' ')

def widest (rows : List Row) : Nat := (rows.map (·.term.length)).foldl max 0

/-- Terms and what is said about them side by side. -/
def beside (rows : List Row) : String :=
  let width := widest rows
  String.join (rows.map fun r =>
    "  " ++ r.term ++ spaces (width - r.term.length) ++ "  " ++ r.about ++ "\n")

/-- What is said about a term on the line below it, with something between the rows. -/
def below (between : String) (rows : List Row) : String :=
  between.intercalate (rows.map fun r => "  " ++ r.term ++ "\n" ++ spaces 10 ++ r.about ++ "\n")

/-- Whether the terms take more than two fifths of a line and leave too little for what is said
about one of them. -/
def isCrowded (rows : List Row) : Bool :=
  let taken := widest rows + 12
  lineWidth * 2 < taken * 5 && rows.any fun r => lineWidth < taken + r.about.length

def optionRow (o : OptionForm) : Row := ⟨"    " ++ o.written, o.about⟩

def helpRow (about : String) : Row := ⟨"-h, --help", about⟩

def usage (words : List String) : String :=
  "Usage: " ++ " ".intercalate words ++ "\n\n"

def options (full : Bool) (rows : List Row) : String :=
  "Options:\n" ++
    if full then below "\n" rows else if isCrowded rows then below "" rows else beside rows

def ofCommand (program : String) (full : Bool) (c : CommandForm) : String :=
  let required := (c.options.filter (·.required)).map (·.written)
  let usage := usage (program :: c.name :: "[OPTIONS]" :: required)
  let rows := c.options.map optionRow
  match c.details, full with
  | some details, true =>
    c.about ++ ".\n\n" ++ details ++ "\n\n" ++ usage
      ++ options true (rows ++ [helpRow "Print help (see a summary with '-h')"])
  | some _, false =>
    c.about ++ "\n\n" ++ usage
      ++ options false (rows ++ [helpRow "Print help (see more with '--help')"])
  | none, _ => c.about ++ "\n\n" ++ usage ++ options false (rows ++ [helpRow "Print help"])

def helpCommand : Row := ⟨"help", "Print this message or the help of the given subcommand(s)"⟩

def ofProgram (program about : String) : String :=
  about ++ "\n\n" ++ usage [program, "[OPTIONS]", "<COMMAND>"]
    ++ "Commands:\n" ++ beside (CommandForm.all.map (fun c => ⟨c.name, c.about⟩) ++ [helpCommand])
    ++ "\n" ++ options false [optionRow logFlag, helpRow "Print help",
      ⟨"-V, --version", "Print version"⟩]

/-- What the command that prints help says of itself. -/
def ofHelp (program : String) : String :=
  helpCommand.about ++ "\n\n" ++ usage [program, helpCommand.term, "[COMMAND]..."]
    ++ "Arguments:\n" ++ beside [⟨"[COMMAND]...", "Print help for the subcommand(s)"⟩]

end BasicBlocks.CommandLine.Help
