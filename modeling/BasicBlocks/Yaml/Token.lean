import BasicBlocks.Yaml.Scalar

/-!
# YAML tokens

What a YAML text is made of, once indentation has been turned into opening and closing tokens. A tag
is a handle and a suffix until its handle is looked up.
-/

namespace BasicBlocks.Yaml

/-- How a scalar is written. -/
inductive Style
  | plain
  | quoted
  | block (folded : Bool)
  deriving DecidableEq, Repr

inductive Token
  | versionDirective (major minor : Nat)
  | tagDirective (handle meaning : String)
  | documentStart
  | documentEnd
  | blockSequenceStart
  | blockMappingStart
  | blockEnd
  | flowSequenceStart
  | flowSequenceEnd
  | flowMappingStart
  | flowMappingEnd
  | blockItem
  | flowSeparator
  | key
  | value
  | alias (name : String)
  | anchor (name : String)
  | tag (handle suffix : String)
  | scalar (style : Style) (text : String)
  deriving DecidableEq, Repr

/-- A name after `&` or `*`, which ends at a gap or at one of a few indicators. -/
def takeName (cs : List Char) : Option (List Char × List Char) :=
  let name := cs.takeWhile isWord
  let rest := cs.dropWhile isWord
  let ends := atGap rest || match rest with
    | c :: _ => [('?'), (':'), (','), (']'), ('}'), ('%'), ('@'), (Char.ofNat 0x60)].contains c
    | [] => true
  if name.isEmpty || !ends then none else some (name, rest)

/-- Characters of tags, besides words and escapes; commas and brackets only where the tag is written
out between angle brackets. -/
def isTagMark (verbatim : Bool) (c : Char) : Bool :=
  [';', '/', '?', ':', '@', '&', '=', '+', '$', '.', '!', '~', '*', '\'', '(', ')'].contains c ||
    (verbatim && [',', '[', ']'].contains c)

/-- The bytes that a run of percent escapes gives. -/
def takePercent : List Char → Option (List UInt8 × List Char)
  | '%' :: a :: b :: rest => do
    let n ← Numeral.read? 16 [a, b]
    let (later, rest) ← takePercent rest
    return (UInt8.ofNat n :: later, rest)
  | '%' :: _ => none
  | cs => some ([], cs)

/-- Characters of a tag. -/
def takeTagChars (verbatim : Bool) : List Char → List Char × List Char
  | [] => ([], [])
  | c :: rest =>
    if isWord c || isTagMark verbatim c || c = '%' then
      let (run, rest) := takeTagChars verbatim rest
      (c :: run, rest)
    else ([], c :: rest)

/-- A tag after its exclamation mark: handle, suffix and the rest. -/
def takeTag : List Char → Option (String × String × List Char)
  | '<' :: rest =>
    let (uri, rest) := takeTagChars true rest
    match uri, rest with
    | _ :: _, '>' :: rest => some ("", String.ofList uri, rest)
    | _, _ => none
  | cs =>
    let word := cs.takeWhile isWord
    match cs.dropWhile isWord with
    | '!' :: rest =>
      let (suffix, rest) := takeTagChars false rest
      if suffix.isEmpty then none
      else some (String.ofList ('!' :: word ++ ['!']), String.ofList suffix, rest)
    | _ =>
      let (suffix, rest) := takeTagChars false cs
      if suffix.isEmpty then some ("", "!", rest) else some ("!", String.ofList suffix, rest)

def takeNumber (cs : List Char) : Option (Nat × List Char) :=
  let digits := cs.takeWhile Char.isDigit
  if digits.isEmpty || 9 < digits.length then none
  else (Numeral.read? 10 digits).map (·, cs.dropWhile Char.isDigit)

/-- Nothing but blanks and a comment up to the end of the line. -/
def takeLineEnd (cs : List Char) : Option (List Char) :=
  let rest := cs.dropWhile isBlank
  let rest := if rest.head? = some '#' then rest.dropWhile (!isBreak ·) else rest
  if atLineEnd rest then some rest else none

/-- The handle that a directive defines. -/
def takeHandle : List Char → Option (String × List Char)
  | '!' :: cs =>
    let word := cs.takeWhile isWord
    match cs.dropWhile isWord with
    | '!' :: rest => some (String.ofList ('!' :: word ++ ['!']), rest)
    | rest => if word.isEmpty then some ("!", rest) else none
  | _ => none

/-- A directive after its percent sign, up to the end of its line. -/
def takeDirective (cs : List Char) : Option (Token × List Char) := do
  let name := cs.takeWhile isWord
  let rest := cs.dropWhile isWord
  if !atGap rest then none
  else if name = "YAML".toList then
    let (major, rest) ← takeNumber (rest.dropWhile isBlank)
    match rest with
    | '.' :: rest =>
      let (minor, rest) ← takeNumber rest
      return (.versionDirective major minor, ← takeLineEnd rest)
    | _ => none
  else if name = "TAG".toList then
    let (handle, rest) ← takeHandle (rest.dropWhile isBlank)
    if !(rest.head?.any isBlank) then none
    else
      let (meaning, rest) := takeTagChars true (rest.dropWhile isBlank)
      if meaning.isEmpty || !atGap rest then none
      else return (.tagDirective handle (String.ofList meaning), ← takeLineEnd rest)
  else none

end BasicBlocks.Yaml
