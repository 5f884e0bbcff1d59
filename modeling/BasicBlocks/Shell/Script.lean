/-!
# Shell scripts

The commands of a shell script as they are written. A word is a row of segments; what a segment
stands for is split into fields unless it is quoted.
-/

namespace BasicBlocks.Shell

/-- What is done with the value of a parameter. A parameter that is empty counts as not set where
`blank` holds. -/
inductive Transform
  | plain
  | length
  | orElse (blank : Bool)
  | whenSet (blank : Bool)
  | assign (blank : Bool)
  /-- Without the shortest or longest match at the front or at the end. -/
  | trim (atEnd longest : Bool)
  deriving DecidableEq, Repr

inductive RedirectKind
  | write
  | append
  | read
  /-- The word is the input itself. -/
  | text
  /-- The word is the number of another descriptor. -/
  | duplicate
  deriving DecidableEq, Repr

mutual

inductive Segment
  | text (quoted : Bool) (s : String)
  | parameter (quoted : Bool) (name : String) (transform : Transform) (word : List Segment)
  /-- What commands write. -/
  | output (quoted : Bool) (commands : Statement)
  | arithmetic (quoted : Bool) (expression : List Segment)

inductive Redirect
  | mk (descriptor : Nat) (kind : RedirectKind) (target : List Segment)

inductive Statement
  | skip
  /-- A command with as many lines of the script below it. -/
  | simple (below : Nat) (assignments : List (String × List Segment))
      (words : List (List Segment)) (redirects : List Redirect)
  | sequence (first second : Statement)
  | both (first second : Statement)
  | either (first second : Statement)
  | negation (s : Statement)
  | pipe (first second : Statement)
  | background (s : Statement)
  | choice (condition yes no : Statement)
  /-- Over the arguments where no words are given. -/
  | forEach (name : String) (words : Option (List (List Segment))) (body : Statement)
  | loop (negated : Bool) (condition body : Statement)
  | select (subject : List Segment) (cases : List (List (List Segment) × Statement))
  | group (subshell : Bool) (body : Statement) (redirects : List Redirect)

end

def Redirect.descriptor : Redirect → Nat
  | .mk descriptor _ _ => descriptor

instance : Inhabited Statement := ⟨.skip⟩

structure Script where
  lines : Nat
  body : Statement

end BasicBlocks.Shell
