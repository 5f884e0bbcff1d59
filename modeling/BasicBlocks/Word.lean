/-!
# Machine words

Addresses, sizes and offsets are 64-bit words. Sums of words are exact: a sum that does not fit is
either clipped to the last word or refused, and never wraps.
-/

namespace BasicBlocks

abbrev Word := UInt64

namespace Word

/-- The greatest word. -/
def last : Word := 0xffffffffffffffff

/-- One more than the greatest word. -/
def bound : Nat := UInt64.size

/-- The word of value `n`, for `n` below the bound. -/
def ofNat? (n : Nat) : Option Word :=
  if n < bound then some (UInt64.ofNat n) else none

/-- The exact sum, clipped to the last word. -/
def clippedAdd (a b : Word) : Word :=
  if a.toNat + b.toNat < bound then a + b else last

/-- The exact sum, if it is a word. -/
def add? (a b : Word) : Option Word :=
  if a.toNat + b.toNat < bound then some (a + b) else none

theorem toNat_lt_bound (a : Word) : a.toNat < bound := a.toNat_lt

theorem toNat_last : last.toNat = bound - 1 := by decide

theorem toNat_ofNat_of_lt {n : Nat} (h : n < bound) : (UInt64.ofNat n).toNat = n :=
  UInt64.toNat_ofNat_of_lt' h

theorem ofNat?_toNat (a : Word) : ofNat? a.toNat = some a := by
  simp [ofNat?, toNat_lt_bound]

theorem toNat_of_ofNat? {n : Nat} {a : Word} (h : ofNat? n = some a) : a.toNat = n := by
  unfold ofNat? at h
  split at h
  next fits => rw [← Option.some.inj h, toNat_ofNat_of_lt fits]
  next => cases h

theorem toNat_add_of_lt {a b : Word} (h : a.toNat + b.toNat < bound) :
    (a + b).toNat = a.toNat + b.toNat := by
  rw [UInt64.toNat_add]
  exact Nat.mod_eq_of_lt h

theorem toNat_clippedAdd (a b : Word) :
    (clippedAdd a b).toNat = min (a.toNat + b.toNat) (bound - 1) := by
  have hb : bound = 18446744073709551616 := rfl
  unfold clippedAdd
  split
  next fits => rw [toNat_add_of_lt fits]; omega
  next => rw [toNat_last]; omega

theorem add?_eq_some_iff {a b c : Word} :
    add? a b = some c ↔ c.toNat = a.toNat + b.toNat := by
  unfold add?
  split
  next fits =>
    rw [Option.some.injEq, ← UInt64.toNat_inj, toNat_add_of_lt fits]
    exact eq_comm
  next full =>
    have := c.toNat_lt_bound
    constructor
    · intro h; cases h
    · intro h; omega

end Word
end BasicBlocks
