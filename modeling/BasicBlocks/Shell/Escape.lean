import BasicBlocks.Text.Utf8

/-!
# Shell escapes

What a backslash introduces in texts that are printed: a control character, or a byte in octal.
-/

namespace BasicBlocks.Shell.Escape

open Utf8 (Bytes)

def isOctal (c : Char) : Bool := '0'.toNat ≤ c.toNat && c.toNat ≤ '7'.toNat

def octal (digits : List Char) : UInt8 :=
  UInt8.ofNat (digits.foldl (fun n c => 8 * n + (c.toNat - '0'.toNat)) 0)

def takeOctal (most : Nat) (cs : List Char) : List Char := (cs.take most).takeWhile isOctal

def control? : Char → Option UInt8
  | 'a' => some 7
  | 'b' => some 8
  | 't' => some 9
  | 'n' => some 10
  | 'v' => some 11
  | 'f' => some 12
  | 'r' => some 13
  | '\\' => some 92
  | _ => none

/-- What follows a backslash, and the rest; a backslash before nothing known stands for itself. -/
def decode (cs : List Char) : Bytes × List Char :=
  match cs with
  | [] => ([92], [])
  | c :: rest =>
    match control? c with
    | some b => ([b], rest)
    | none =>
      let digits := takeOctal 3 cs
      if digits.isEmpty then ([92], cs) else ([octal digits], cs.drop digits.length)

/-- The bytes of a text with escapes, and whether an escape cuts it short. An octal number may have
three digits after a zero. -/
def expandFrom : Nat → List Char → Bytes × Bool
  | 0, _ => ([], false)
  | _, [] => ([], false)
  | _, '\\' :: 'c' :: _ => ([], true)
  | n + 1, '\\' :: '0' :: rest =>
    let digits := takeOctal 3 rest
    let (more, cut) := expandFrom n (rest.drop digits.length)
    (octal digits :: more, cut)
  | n + 1, '\\' :: rest =>
    let (bytes, rest) := decode rest
    let (more, cut) := expandFrom n rest
    (bytes ++ more, cut)
  | n + 1, c :: rest =>
    let (more, cut) := expandFrom n rest
    (Utf8.encodeChar c ++ more, cut)

def expand (s : String) : Bytes × Bool := expandFrom (s.toList.length + 1) s.toList

end BasicBlocks.Shell.Escape
