import BasicBlocks.Shell.Arithmetic
import BasicBlocks.Shell.Escape

/-!
# Shell formats

Texts with directives that take arguments. A format is used again as long as there are arguments;
an argument that is missing is empty or zero.
-/

namespace BasicBlocks.Shell.Format

open Utf8 (Bytes)

structure Directive where
  left : Bool
  zeros : Bool
  plus : Bool
  width : Nat
  precision : Option Nat

def readNumber (cs : List Char) : Nat × List Char :=
  let digits := cs.takeWhile Char.isDigit
  ((Numeral.readFrom 10 0 digits).getD 0, cs.drop digits.length)

/-- A directive up to its letter. -/
def directive (cs : List Char) : Directive × List Char :=
  let flags := cs.takeWhile (['-', '0', '+', ' ', '#'].contains ·)
  let (width, rest) := readNumber (cs.drop flags.length)
  let (precision, rest) := match rest with
    | '.' :: rest =>
      let (p, rest) := readNumber rest
      (some p, rest)
    | rest => (none, rest)
  ({ left := flags.contains '-', zeros := flags.contains '0', plus := flags.contains '+', width,
     precision }, rest)

def pad (d : Directive) (bytes : Bytes) : Bytes :=
  let fill := List.replicate (d.width - bytes.length) (32 : UInt8)
  if d.left then bytes ++ fill else fill ++ bytes

def number (s : String) : Int :=
  match s.toList with
  | '0' :: 'x' :: rest => ((Numeral.read? 16 rest).getD 0 : Nat)
  | '\'' :: c :: _ => c.toNat
  | '"' :: c :: _ => c.toNat
  | cs => (Arithmetic.integer? cs).getD 0

def writeNumber (d : Directive) (base : Nat) (large : Bool) (n : Int) : Bytes :=
  let digits := Numeral.writeChars base n.natAbs
  let digits := String.ofList (if large then digits.map Char.toUpper else digits)
  let sign := if n < 0 then "-" else if d.plus then "+" else ""
  let least := match d.precision with
    | some p => p
    | none => if d.zeros && !d.left then d.width - sign.length else 0
  let zeros := String.ofList (List.replicate (least - digits.length) '0')
  pad d (Utf8.encode (sign ++ zeros ++ digits))

def cut (d : Directive) (bytes : Bytes) : Bytes :=
  match d.precision with
  | some p => bytes.take p
  | none => bytes

/-- The bytes of a directive with an argument, and whether it ends all output. -/
def convert (d : Directive) (letter : Char) (argument : String) : Bytes × Bool :=
  match letter with
  | 's' => (pad d (cut d (Utf8.encode argument)), false)
  | 'b' =>
    let (bytes, stop) := Escape.expand argument
    (pad d (cut d bytes), stop)
  | 'c' => (pad d (Utf8.encode (String.ofList (argument.toList.take 1))), false)
  | 'd' => (writeNumber d 10 false (number argument), false)
  | 'i' => (writeNumber d 10 false (number argument), false)
  | 'u' => (writeNumber d 10 false (number argument), false)
  | 'x' => (writeNumber d 16 false (number argument), false)
  | 'X' => (writeNumber d 16 true (number argument), false)
  | 'o' => (writeNumber d 8 false (number argument), false)
  | _ => ([], false)

structure Pass where
  bytes : Bytes
  arguments : List String
  stop : Bool

/-- One use of a format. -/
def passFrom : Nat → List Char → List String → Pass
  | 0, _, arguments => ⟨[], arguments, false⟩
  | _, [], arguments => ⟨[], arguments, false⟩
  | _, '\\' :: 'c' :: _, arguments => ⟨[], arguments, true⟩
  | n + 1, '\\' :: rest, arguments =>
    let (bytes, rest) := Escape.decode rest
    let later := passFrom n rest arguments
    { later with bytes := bytes ++ later.bytes }
  | n + 1, '%' :: '%' :: rest, arguments =>
    let later := passFrom n rest arguments
    { later with bytes := 37 :: later.bytes }
  | n + 1, '%' :: rest, arguments =>
    let (d, rest) := directive rest
    match rest with
    | [] => ⟨[], arguments, true⟩
    | letter :: rest =>
      let (bytes, stop) := convert d letter (arguments.headD "")
      if stop then ⟨bytes, [], true⟩
      else
        let later := passFrom n rest (arguments.drop 1)
        { later with bytes := bytes ++ later.bytes }
  | n + 1, c :: rest, arguments =>
    let later := passFrom n rest arguments
    { later with bytes := Utf8.encodeChar c ++ later.bytes }

/-- Uses a format while it takes arguments. -/
def render : Nat → List Char → List String → Bytes
  | 0, _, _ => []
  | n + 1, format, arguments =>
    let pass := passFrom (format.length + 1) format arguments
    let again := !pass.stop && !pass.arguments.isEmpty && pass.arguments.length < arguments.length
    pass.bytes ++ (if again then render n format pass.arguments else [])

def write (format : String) (arguments : List String) : Bytes :=
  render (arguments.length + 1) format.toList arguments

end BasicBlocks.Shell.Format
