/-!
# UTF-8

Characters as bytes. A byte list that is no encoding is cut at its first malformed piece: the
longest run that could still have begun a character, or one byte where nothing could.
`decode` reports how many bytes precede it, and `decodeLossy` writes one replacement character
for each such piece.
-/

namespace BasicBlocks.Utf8

abbrev Bytes := List UInt8

def encodeChar (c : Char) : Bytes :=
  let n := c.toNat
  if n < 0x80 then [UInt8.ofNat n]
  else if n < 0x800 then [UInt8.ofNat (0xc0 + n / 0x40), UInt8.ofNat (0x80 + n % 0x40)]
  else if n < 0x10000 then
    [UInt8.ofNat (0xe0 + n / 0x1000), UInt8.ofNat (0x80 + n / 0x40 % 0x40),
      UInt8.ofNat (0x80 + n % 0x40)]
  else
    [UInt8.ofNat (0xf0 + n / 0x40000), UInt8.ofNat (0x80 + n / 0x1000 % 0x40),
      UInt8.ofNat (0x80 + n / 0x40 % 0x40), UInt8.ofNat (0x80 + n % 0x40)]

def encodeChars (cs : List Char) : Bytes := cs.flatMap encodeChar

def encode (s : String) : Bytes := encodeChars s.toList

/-- Continuation bytes carry six bits each. -/
def isContinuation (b : UInt8) : Bool := 0x80 ≤ b.toNat && b.toNat < 0xc0

/-- The least second byte that a first byte admits: shorter encodings of a character are excluded. -/
def leastSecond (first : Nat) : Nat :=
  if first = 0xe0 then 0xa0 else if first = 0xf0 then 0x90 else 0x80

/-- The bound on second bytes: surrogates and values past the last character are excluded. -/
def secondBound (first : Nat) : Nat :=
  if first = 0xed then 0xa0 else if first = 0xf4 then 0x90 else 0xc0

def isSecond (first : Nat) (b : UInt8) : Bool :=
  leastSecond first ≤ b.toNat && b.toNat < secondBound first

/-- The character that begins with `b`, with the number of bytes it takes from `rest`, or the width
of the malformed piece there. -/
def readChar (b : UInt8) (rest : Bytes) : Except Nat (Char × Nat) :=
  let first := b.toNat
  if first < 0x80 then .ok (Char.ofNat first, 0)
  else if first < 0xc2 || 0xf5 ≤ first then .error 1
  else
    match rest with
    | [] => .error 1
    | b₁ :: rest₁ =>
      if !isSecond first b₁ then .error 1
      else if first < 0xe0 then .ok (Char.ofNat ((first - 0xc0) * 0x40 + (b₁.toNat - 0x80)), 1)
      else
        match rest₁ with
        | [] => .error 2
        | b₂ :: rest₂ =>
          if !isContinuation b₂ then .error 2
          else if first < 0xf0 then
            .ok (Char.ofNat ((first - 0xe0) * 0x1000 + (b₁.toNat - 0x80) * 0x40
              + (b₂.toNat - 0x80)), 2)
          else
            match rest₂ with
            | [] => .error 3
            | b₃ :: _ =>
              if !isContinuation b₃ then .error 3
              else
                .ok (Char.ofNat ((first - 0xf0) * 0x40000 + (b₁.toNat - 0x80) * 0x1000
                  + (b₂.toNat - 0x80) * 0x40 + (b₃.toNat - 0x80)), 3)

/-- The characters of an encoding, or the number of bytes before the first malformed piece. -/
def decodeChars : Bytes → Except Nat (List Char)
  | [] => .ok []
  | b :: rest =>
    match readChar b rest with
    | .error _ => .error 0
    | .ok (c, taken) =>
      match decodeChars (rest.drop taken) with
      | .error valid => .error (1 + taken + valid)
      | .ok cs => .ok (c :: cs)
termination_by bytes => bytes.length
decreasing_by simp only [List.length_cons, List.length_drop]; omega

def decode (bytes : Bytes) : Except Nat String :=
  (decodeChars bytes).map String.ofList

def decode? (bytes : Bytes) : Option String :=
  (decode bytes).toOption

def replacement : Char := '\ufffd'

/-- Every malformed piece becomes one replacement character. -/
def decodeLossyChars : Bytes → List Char
  | [] => []
  | b :: rest =>
    match readChar b rest with
    | .error width => replacement :: decodeLossyChars (rest.drop (width - 1))
    | .ok (c, taken) => c :: decodeLossyChars (rest.drop taken)
termination_by bytes => bytes.length
decreasing_by all_goals (simp only [List.length_cons, List.length_drop]; omega)

def decodeLossy (bytes : Bytes) : String := String.ofList (decodeLossyChars bytes)

end BasicBlocks.Utf8
