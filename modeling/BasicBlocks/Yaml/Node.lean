import BasicBlocks.Yaml.Lexer

/-!
# YAML nodes

What a document means: scalars, sequences and mappings, with their tags. An alias stands for the
node of its anchor; inside that node itself it stands for nothing that can be used.
-/

namespace BasicBlocks.Yaml

inductive Node
  | scalar (tag : Option String) (style : Style) (text : String)
  | sequence (tag : Option String) (items : List Node)
  | mapping (tag : Option String) (entries : List (Node × Node))
  /-- An alias inside the node that it names. -/
  | cycle

namespace Node

/-- What is written where nothing is. -/
def empty (tag : Option String) : Node := .scalar tag .plain ""

/-- The nodes that have been named, last first, and the meanings of tag handles, with those that
directives define. -/
structure Scope where
  anchors : List (String × Node)
  handles : List (String × String)
  defined : List String

def Scope.initial : Scope := ⟨[], [("!", "!"), ("!!", "tag:yaml.org,2002:")], []⟩

def Scope.name (s : Scope) (anchor : Option String) (node : Node) : Scope :=
  match anchor with
  | none => s
  | some a => { s with anchors := (a, node) :: s.anchors }

def Scope.tag? (s : Scope) (handle suffix : String) : Option String :=
  if handle.isEmpty then some suffix else (s.handles.lookup handle).map (· ++ suffix)

/-- A scalar's tag; the tag without a name is none. -/
def scalarTag (tag : Option String) : Option String := tag.filter (· ≠ "!")

/-- What a node can be at its place. -/
structure Place where
  /-- Block collections may stand here. -/
  block : Bool
  /-- A sequence may begin without indentation of its own. -/
  level : Bool

def inBlock : Place := ⟨true, false⟩

def afterKey : Place := ⟨true, true⟩

def inFlow : Place := ⟨false, false⟩

structure Properties where
  anchor : Option String
  tag : Option String

/-- A tag and an anchor, in either order. -/
def takeProperties (s : Scope) : List Token → Option (Properties × List Token)
  | .anchor a :: .tag handle suffix :: ts => (s.tag? handle suffix).map fun tag => (⟨some a, some tag⟩, ts)
  | .tag handle suffix :: .anchor a :: ts => (s.tag? handle suffix).map fun tag => (⟨some a, some tag⟩, ts)
  | .anchor a :: ts => some (⟨some a, none⟩, ts)
  | .tag handle suffix :: ts => (s.tag? handle suffix).map fun tag => (⟨none, some tag⟩, ts)
  | ts => some (⟨none, none⟩, ts)

def hasProperties : List Token → Bool
  | .anchor _ :: _ => true
  | .tag _ _ :: _ => true
  | _ => false

/-- A part of a document with the tokens after it and what has been named so far. -/
abbrev Parsed (α : Type) := Option (α × List Token × Scope)

/-- Whether nothing stands between the indicator before and this token. -/
def isAbsent (closers : List Token) : List Token → Bool
  | [] => true
  | t :: _ => closers.contains t

mutual

/-- A node, which has to be there. The bound is on the depth of calls. -/
def parse : Nat → Place → List Token → Scope → Parsed Node
  | 0, _, _, _ => none
  | n + 1, place, ts, s =>
    match ts with
    | .alias a :: ts => (s.anchors.lookup a).map fun node => (node, ts, s)
    | ts =>
      match takeProperties s ts with
      | none => none
      | some (p, rest) =>
        let inside := s.name p.anchor .cycle
        match rest with
        | .scalar style text :: rest =>
          let node := .scalar (scalarTag p.tag) style text
          some (node, rest, s.name p.anchor node)
        | .flowSequenceStart :: rest =>
          (flowItems n true rest inside).map fun (items, rest, s) =>
            let node := .sequence p.tag items
            (node, rest, s.name p.anchor node)
        | .flowMappingStart :: rest =>
          (flowEntries n true rest inside).map fun (entries, rest, s) =>
            let node := .mapping p.tag entries
            (node, rest, s.name p.anchor node)
        | rest =>
          if place.level && rest.head? = some .blockItem then
            (levelItems n rest inside).map fun (items, rest, s) =>
              let node := .sequence p.tag items
              (node, rest, s.name p.anchor node)
          else if place.block && rest.head? = some .blockSequenceStart then
            (blockItems n (rest.drop 1) inside).map fun (items, rest, s) =>
              let node := .sequence p.tag items
              (node, rest, s.name p.anchor node)
          else if place.block && rest.head? = some .blockMappingStart then
            (blockEntries n (rest.drop 1) inside).map fun (entries, rest, s) =>
              let node := .mapping p.tag entries
              (node, rest, s.name p.anchor node)
          else if hasProperties ts then
            some (empty p.tag, rest, s.name p.anchor (empty p.tag))
          else none

/-- A node, or the empty one where one of the closing tokens follows. -/
def parseOr : Nat → Place → List Token → List Token → Scope → Parsed Node
  | 0, _, _, _, _ => none
  | n + 1, place, closers, ts, s =>
    if isAbsent closers ts then some (empty none, ts, s) else parse n place ts s

/-- Items of a sequence with indentation of its own, to its end. -/
def blockItems : Nat → List Token → Scope → Parsed (List Node)
  | 0, _, _ => none
  | n + 1, ts, s =>
    match ts with
    | .blockItem :: ts =>
      match parseOr n inBlock [.blockItem, .blockEnd] ts s with
      | none => none
      | some (item, ts, s) =>
        (blockItems n ts s).map fun (items, ts, s) => (item :: items, ts, s)
    | .blockEnd :: ts => some ([], ts, s)
    | _ => none

/-- Items of a sequence at the level of the mapping around it. -/
def levelItems : Nat → List Token → Scope → Parsed (List Node)
  | 0, _, _ => none
  | n + 1, ts, s =>
    match ts with
    | .blockItem :: ts =>
      match parseOr n inBlock [.blockItem, .key, .value, .blockEnd] ts s with
      | none => none
      | some (item, ts, s) =>
        (levelItems n ts s).map fun (items, ts, s) => (item :: items, ts, s)
    | ts => some ([], ts, s)

def blockEntries : Nat → List Token → Scope → Parsed (List (Node × Node))
  | 0, _, _ => none
  | n + 1, ts, s =>
    match ts with
    | .key :: ts =>
      match parseOr n afterKey [.key, .value, .blockEnd] ts s with
      | none => none
      | some (key, ts, s) =>
        match blockValue n ts s with
        | none => none
        | some (value, ts, s) =>
          (blockEntries n ts s).map fun (entries, ts, s) => ((key, value) :: entries, ts, s)
    | .blockEnd :: ts => some ([], ts, s)
    | _ => none

def blockValue : Nat → List Token → Scope → Parsed Node
  | 0, _, _ => none
  | n + 1, ts, s =>
    match ts with
    | .value :: ts => parseOr n afterKey [.key, .value, .blockEnd] ts s
    | ts => some (empty none, ts, s)

/-- Items of a flow sequence, to its end. A key makes an item a mapping of one entry. -/
def flowItems : Nat → Bool → List Token → Scope → Parsed (List Node)
  | 0, _, _, _ => none
  | n + 1, first, ts, s =>
    match ts with
    | .flowSequenceEnd :: ts => some ([], ts, s)
    | ts =>
      match (if first then some ts else match ts with
          | .flowSeparator :: ts => some ts
          | _ => none) with
      | none => none
      | some (.flowSequenceEnd :: ts) => some ([], ts, s)
      | some ts =>
        match flowItem n ts s with
        | none => none
        | some (item, ts, s) =>
          (flowItems n false ts s).map fun (items, ts, s) => (item :: items, ts, s)

def flowItem : Nat → List Token → Scope → Parsed Node
  | 0, _, _ => none
  | n + 1, ts, s =>
    match ts with
    | .key :: ts =>
      match parseOr n inFlow [.value, .flowSeparator, .flowSequenceEnd] ts s with
      | none => none
      | some (key, ts, s) =>
        match flowValue n [.flowSeparator, .flowSequenceEnd] ts s with
        | none => none
        | some (value, ts, s) => some (.mapping none [(key, value)], ts, s)
    | ts => parse n inFlow ts s

def flowEntries : Nat → Bool → List Token → Scope → Parsed (List (Node × Node))
  | 0, _, _, _ => none
  | n + 1, first, ts, s =>
    match ts with
    | .flowMappingEnd :: ts => some ([], ts, s)
    | ts =>
      match (if first then some ts else match ts with
          | .flowSeparator :: ts => some ts
          | _ => none) with
      | none => none
      | some (.flowMappingEnd :: ts) => some ([], ts, s)
      | some ts =>
        match flowEntry n ts s with
        | none => none
        | some (entry, ts, s) =>
          (flowEntries n false ts s).map fun (entries, ts, s) => (entry :: entries, ts, s)

/-- A key with its value, or a key alone. -/
def flowEntry : Nat → List Token → Scope → Parsed (Node × Node)
  | 0, _, _ => none
  | n + 1, ts, s =>
    match ts with
    | .key :: ts =>
      match parseOr n inFlow [.value, .flowSeparator, .flowMappingEnd] ts s with
      | none => none
      | some (key, ts, s) =>
        (flowValue n [.flowSeparator, .flowMappingEnd] ts s).map fun (value, ts, s) =>
          ((key, value), ts, s)
    | ts => (parse n inFlow ts s).map fun (key, ts, s) => ((key, empty none), ts, s)

def flowValue : Nat → List Token → List Token → Scope → Parsed Node
  | 0, _, _, _ => none
  | n + 1, closers, ts, s =>
    match ts with
    | .value :: ts => parseOr n inFlow closers ts s
    | ts => some (empty none, ts, s)

end

/-- Directives before a document, and whether there are any. The version is stated at most once, and
is 1.1 or 1.2; a handle is defined at most once. -/
def takeDirectives (versioned any : Bool) : List Token → Scope → Option (Bool × List Token × Scope)
  | .versionDirective major minor :: ts, s =>
    if versioned || major ≠ 1 || !(minor = 1 || minor = 2) then none
    else takeDirectives true true ts s
  | .tagDirective handle meaning :: ts, s =>
    if s.defined.contains handle then none
    else
      takeDirectives versioned true ts
        { s with handles := (handle, meaning) :: s.handles, defined := handle :: s.defined }
  | ts, s => some (any, ts, s)

/-- A document after its opening, if it has one. -/
def parseContent (ts : List Token) : Scope → Parsed Node :=
  parseOr (4 * ts.length + 4) inBlock [.documentStart, .documentEnd] ts

/-- The only document: `some none` where there is none at all. -/
def ofTokens? (ts : List Token) : Option (Option Node) :=
  match ts with
  | [] => some none
  | ts =>
    match takeDirectives false false ts .initial with
    | none => none
    | some (directives, rest, s) =>
      let content := match rest with
        | .documentStart :: rest => parseContent rest s
        | rest =>
          if directives then none else parse (4 * rest.length + 4) inBlock rest s
      match content with
      | none => none
      | some (node, rest, _) =>
        if (rest.dropWhile (· == .documentEnd)).isEmpty then some (some node) else none

end Node

/-- The document that a text holds. -/
def read? (s : String) : Option (Option Node) := (lex s).bind Node.ofTokens?

end BasicBlocks.Yaml
