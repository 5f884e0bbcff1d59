import BasicBlocks.FileSystem.Access

/-!
# Hosts

A host starts programs. What a program does is known for every moment: the files it has changed,
the bytes it has written, and whether it has come to its end.
-/

namespace BasicBlocks

structure Command where
  program : String
  arguments : List String
  deriving DecidableEq, Repr

namespace Command

def escapeChar (c : Char) : String :=
  if c = '\t' then "\\t"
  else if c = '\n' then "\\n"
  else if c = '\r' then "\\r"
  else if c = '"' then "\\\""
  else if c = '\'' then "\\'"
  else if c = '\\' then "\\\\"
  else if c.toNat < 0x10 then "\\x0" ++ Numeral.hexadecimal c.toNat
  else if c.toNat < 0x20 || c.toNat = 0x7f then "\\x" ++ Numeral.hexadecimal c.toNat
  else String.singleton c

def quote (s : String) : String := "\"" ++ String.join (s.toList.map escapeChar) ++ "\""

/-- Every part in quotes. -/
def text (c : Command) : String := " ".intercalate ((c.program :: c.arguments).map quote)

end Command

/-- How a program ended: with an exit code, or by a signal. -/
abbrev ExitCode := Option Int

structure Activity where
  files : FileSystem
  output : Utf8.Bytes
  /-- How the program ended and after how many milliseconds, once it has. -/
  finished : Option (ExitCode × Nat)

structure Host where
  /-- The user and the group that own the files here. -/
  owner : String
  /-- What a program does until it ends, or within so many milliseconds. -/
  start : Command → FileSystem → Except IoFault (Option Nat → Activity)

end BasicBlocks
