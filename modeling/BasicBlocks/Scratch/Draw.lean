/-!
# Drawn names

What is made beside the work of others gets a name of its own by a text that is drawn for it: six
letters or digits.
-/

namespace BasicBlocks

/-- What has been drawn for a new name. -/
structure Draw where
  text : String
  length_eq : text.toList.length = 6
  isAlphanum : ∀ c ∈ text.toList, c.isAlphanum = true
  deriving DecidableEq, Repr

namespace Draw

theorem noSlash (draw : Draw) : '/' ∉ draw.text.toList := fun slash =>
  absurd (draw.isAlphanum '/' slash) (by decide)

def alphabet : List Char :=
  "0123456789ABCDEFGHIJKLMNOPQRSTUVWXYZabcdefghijklmnopqrstuvwxyz".toList

/-- The letter or digit of a number, round and round the alphabet. -/
def letter (n : Nat) : Char := alphabet.getD (n % 62) '0'

/-- As many letters or digits, the last one for the least place of the number. -/
def letters : Nat → Nat → List Char
  | 0, _ => []
  | k + 1, n => letters k (n / 62) ++ [letter n]

theorem isAlphanum_letter (n : Nat) : (letter n).isAlphanum = true := by
  have all : ∀ i < 62, (alphabet.getD i '0').isAlphanum = true := by decide +kernel
  exact all (n % 62) (Nat.mod_lt n (by decide))

theorem length_letters (k n : Nat) : (letters k n).length = k := by
  induction k generalizing n with
  | zero => rfl
  | succ k ih => simp [letters, ih]

theorem isAlphanum_of_mem_letters {k n : Nat} {c : Char} (h : c ∈ letters k n) :
    c.isAlphanum = true := by
  induction k generalizing n with
  | zero => exact absurd h List.not_mem_nil
  | succ k ih =>
    rcases List.mem_append.mp h with front | last
    · exact ih front
    · exact List.mem_singleton.mp last ▸ isAlphanum_letter n

/-- The draw that a number stands for. -/
def ofNat (n : Nat) : Draw where
  text := String.ofList (letters 6 n)
  length_eq := by rw [String.toList_ofList, length_letters]
  isAlphanum := by
    intro c member
    rw [String.toList_ofList] at member
    exact isAlphanum_of_mem_letters member

/-- The greatest number with a draw of its own. -/
def last : Nat := 56800235583

end Draw
end BasicBlocks
