import Mathlib.Tactic.SplitIfs
import BasicBlocks.Text.Utf8

/-!
# Encodings and their decoding

Decoding accepts exactly the encodings of texts and gives the text back. A character is read off the
front of whatever follows its encoding, so encodings can be cut at any character.
-/

namespace BasicBlocks.Utf8

/-- The values of characters: all below the bound but the surrogates. -/
def IsScalar (n : Nat) : Prop := n < 0xd800 ∨ (0xdfff < n ∧ n < 0x110000)

theorem isScalar_toNat (c : Char) : IsScalar c.toNat := c.valid

theorem toNat_ofNat_of_isScalar {n : Nat} (h : IsScalar n) : (Char.ofNat n).toNat = n := by
  have valid : n.isValidChar := h
  rw [Char.ofNat, dif_pos valid]
  exact Char.toNat_mk

theorem toNat_byte {n : Nat} (h : n < 256) : (UInt8.ofNat n).toNat = n :=
  UInt8.toNat_ofNat_of_lt' h

theorem byte_eq_iff {n : Nat} (h : n < 256) (b : UInt8) : UInt8.ofNat n = b ↔ b.toNat = n := by
  rw [← UInt8.toNat_inj, toNat_byte h]
  exact eq_comm

theorem encodeChar_one {n : Nat} (h : n < 0x80) :
    encodeChar (Char.ofNat n) = [UInt8.ofNat n] := by
  have value := toNat_ofNat_of_isScalar (n := n) (by unfold IsScalar; omega)
  simp only [encodeChar, value]
  rw [if_pos h]

theorem encodeChar_two {n : Nat} (lo : 0x80 ≤ n) (hi : n < 0x800) :
    encodeChar (Char.ofNat n) =
      [UInt8.ofNat (0xc0 + n / 0x40), UInt8.ofNat (0x80 + n % 0x40)] := by
  have value := toNat_ofNat_of_isScalar (n := n) (by unfold IsScalar; omega)
  simp only [encodeChar, value]
  rw [if_neg (by omega), if_pos hi]

theorem encodeChar_three {n : Nat} (lo : 0x800 ≤ n) (hi : n < 0x10000) (scalar : IsScalar n) :
    encodeChar (Char.ofNat n) =
      [UInt8.ofNat (0xe0 + n / 0x1000), UInt8.ofNat (0x80 + n / 0x40 % 0x40),
        UInt8.ofNat (0x80 + n % 0x40)] := by
  simp only [encodeChar, toNat_ofNat_of_isScalar scalar]
  rw [if_neg (by omega), if_neg (by omega), if_pos hi]

theorem encodeChar_four {n : Nat} (lo : 0x10000 ≤ n) (scalar : IsScalar n) :
    encodeChar (Char.ofNat n) =
      [UInt8.ofNat (0xf0 + n / 0x40000), UInt8.ofNat (0x80 + n / 0x1000 % 0x40),
        UInt8.ofNat (0x80 + n / 0x40 % 0x40), UInt8.ofNat (0x80 + n % 0x40)] := by
  simp only [encodeChar, toNat_ofNat_of_isScalar scalar]
  rw [if_neg (by omega), if_neg (by omega), if_neg (by omega)]

theorem isSecond_iff {first : Nat} {b : UInt8} :
    isSecond first b = true ↔ 0x80 ≤ b.toNat ∧ b.toNat < 0xc0 ∧
      (first = 0xe0 → 0xa0 ≤ b.toNat) ∧ (first = 0xf0 → 0x90 ≤ b.toNat) ∧
      (first = 0xed → b.toNat < 0xa0) ∧ (first = 0xf4 → b.toNat < 0x90) := by
  have bounds : isSecond first b = true ↔
      leastSecond first ≤ b.toNat ∧ b.toNat < secondBound first := by simp [isSecond]
  rw [bounds, leastSecond, secondBound]
  split_ifs <;> omega

theorem isContinuation_iff {b : UInt8} :
    isContinuation b = true ↔ 0x80 ≤ b.toNat ∧ b.toNat < 0xc0 := by
  simp [isContinuation]

/-- The well-formed beginnings of a byte list, by the width of the character. -/
inductive Begins (b : UInt8) : Bytes → Char → Nat → Prop
  | one {rest} (h : b.toNat < 0x80) : Begins b rest (Char.ofNat b.toNat) 0
  | two {b₁ rest} (lo : 0xc2 ≤ b.toNat) (hi : b.toNat < 0xe0)
      (second : isSecond b.toNat b₁ = true) :
      Begins b (b₁ :: rest) (Char.ofNat ((b.toNat - 0xc0) * 0x40 + (b₁.toNat - 0x80))) 1
  | three {b₁ b₂ rest} (lo : 0xe0 ≤ b.toNat) (hi : b.toNat < 0xf0)
      (second : isSecond b.toNat b₁ = true) (third : isContinuation b₂ = true) :
      Begins b (b₁ :: b₂ :: rest) (Char.ofNat ((b.toNat - 0xe0) * 0x1000
        + (b₁.toNat - 0x80) * 0x40 + (b₂.toNat - 0x80))) 2
  | four {b₁ b₂ b₃ rest} (lo : 0xf0 ≤ b.toNat) (hi : b.toNat < 0xf5)
      (second : isSecond b.toNat b₁ = true) (third : isContinuation b₂ = true)
      (fourth : isContinuation b₃ = true) :
      Begins b (b₁ :: b₂ :: b₃ :: rest) (Char.ofNat ((b.toNat - 0xf0) * 0x40000
        + (b₁.toNat - 0x80) * 0x1000 + (b₂.toNat - 0x80) * 0x40 + (b₃.toNat - 0x80))) 3

theorem begins_of_readChar {b : UInt8} {rest : Bytes} {c : Char} {k : Nat}
    (h : readChar b rest = .ok (c, k)) : Begins b rest c k := by
  unfold readChar at h
  dsimp only at h
  split at h
  next one =>
    obtain ⟨rfl, rfl⟩ := Prod.mk.inj (Except.ok.inj h)
    exact .one one
  next notOne =>
    split at h
    · cases h
    next inRange =>
      simp only [Bool.or_eq_true, decide_eq_true_eq, not_or, Nat.not_lt, Nat.not_le] at inRange
      split at h
      · cases h
      next b₁ rest₁ =>
        split at h
        · cases h
        next second =>
          have second : isSecond b.toNat b₁ = true := by simpa using second
          split at h
          next two =>
            obtain ⟨rfl, rfl⟩ := Prod.mk.inj (Except.ok.inj h)
            exact .two inRange.1 two second
          next notTwo =>
            split at h
            · cases h
            next b₂ rest₂ =>
              split at h
              · cases h
              next third =>
                have third : isContinuation b₂ = true := by simpa using third
                split at h
                next three =>
                  obtain ⟨rfl, rfl⟩ := Prod.mk.inj (Except.ok.inj h)
                  exact .three (by omega) three second third
                next notThree =>
                  split at h
                  · cases h
                  next b₃ rest₃ =>
                    split at h
                    · cases h
                    next fourth =>
                      have fourth : isContinuation b₃ = true := by simpa using fourth
                      obtain ⟨rfl, rfl⟩ := Prod.mk.inj (Except.ok.inj h)
                      exact .four (by omega) inRange.2 second third fourth

theorem readChar_of_begins {b : UInt8} {rest : Bytes} {c : Char} {k : Nat}
    (h : Begins b rest c k) : readChar b rest = .ok (c, k) := by
  have inRange (lo : 0xc2 ≤ b.toNat) (hi : b.toNat < 0xf5) :
      ¬ ((decide (b.toNat < 0xc2) || decide (0xf5 ≤ b.toNat)) = true) := by
    rw [Bool.or_eq_true, decide_eq_true_eq, decide_eq_true_eq]
    omega
  unfold readChar
  dsimp only
  cases h with
  | one h => rw [if_pos h]
  | two lo hi second =>
    rw [if_neg (by omega), if_neg (inRange (by omega) (by omega))]
    simp only [second, Bool.not_true, Bool.false_eq_true, if_false]
    rw [if_pos hi]
  | three lo hi second third =>
    rw [if_neg (by omega), if_neg (inRange (by omega) (by omega))]
    simp only [second, third, Bool.not_true, Bool.false_eq_true, if_false]
    rw [if_neg (by omega), if_pos hi]
  | four lo hi second third fourth =>
    rw [if_neg (by omega), if_neg (inRange (by omega) (by omega))]
    simp only [second, third, fourth, Bool.not_true, Bool.false_eq_true, if_false]
    rw [if_neg (by omega), if_neg (by omega)]

/-- What begins a byte list encodes the character that is read there. -/
theorem encodeChar_append_of_begins {b : UInt8} {rest : Bytes} {c : Char} {k : Nat}
    (h : Begins b rest c k) : encodeChar c ++ rest.drop k = b :: rest := by
  cases h with
  | one h =>
    rw [encodeChar_one h, (byte_eq_iff (by omega) b).mpr rfl]
    rfl
  | @two b₁ rest lo hi second =>
    have bounds := isSecond_iff.mp second
    rw [encodeChar_two (by omega) (by omega), (byte_eq_iff (by omega) b).mpr (by omega),
      (byte_eq_iff (by omega) b₁).mpr (by omega)]
    rfl
  | @three b₁ b₂ rest lo hi second third =>
    have bounds := isSecond_iff.mp second
    have bounds₂ := isContinuation_iff.mp third
    rw [encodeChar_three (by omega) (by omega) (by unfold IsScalar; omega),
      (byte_eq_iff (by omega) b).mpr (by omega), (byte_eq_iff (by omega) b₁).mpr (by omega),
      (byte_eq_iff (by omega) b₂).mpr (by omega)]
    rfl
  | @four b₁ b₂ b₃ rest lo hi second third fourth =>
    have bounds := isSecond_iff.mp second
    have bounds₂ := isContinuation_iff.mp third
    have bounds₃ := isContinuation_iff.mp fourth
    rw [encodeChar_four (by omega) (by unfold IsScalar; omega),
      (byte_eq_iff (by omega) b).mpr (by omega), (byte_eq_iff (by omega) b₁).mpr (by omega),
      (byte_eq_iff (by omega) b₂).mpr (by omega), (byte_eq_iff (by omega) b₃).mpr (by omega)]
    rfl

/-- The encoding of a character begins every byte list that it stands in front of. -/
theorem begins_encodeChar (c : Char) (rest : Bytes) :
    ∃ b tail, encodeChar c = b :: tail ∧ Begins b (tail ++ rest) c tail.length := by
  obtain ⟨n, scalar, rfl⟩ : ∃ n, IsScalar n ∧ c = Char.ofNat n :=
    ⟨c.toNat, isScalar_toNat c, (Char.ofNat_toNat c).symm⟩
  have scalar' := scalar
  unfold IsScalar at scalar'
  have last := toNat_byte (n := 0x80 + n % 0x40) (by omega)
  have middle := toNat_byte (n := 0x80 + n / 0x40 % 0x40) (by omega)
  have third := toNat_byte (n := 0x80 + n / 0x1000 % 0x40) (by omega)
  by_cases one : n < 0x80
  · have lead := toNat_byte (n := n) (by omega)
    have begins := @Begins.one (UInt8.ofNat n) rest (by omega)
    rw [lead] at begins
    exact ⟨_, _, encodeChar_one one, begins⟩
  by_cases two : n < 0x800
  · have lead := toNat_byte (n := 0xc0 + n / 0x40) (by omega)
    have begins := @Begins.two (UInt8.ofNat (0xc0 + n / 0x40))
      (UInt8.ofNat (0x80 + n % 0x40)) rest (by omega) (by omega) (isSecond_iff.mpr (by omega))
    rw [lead, last] at begins
    have value : (0xc0 + n / 0x40 - 0xc0) * 0x40 + (0x80 + n % 0x40 - 0x80) = n := by omega
    rw [value] at begins
    exact ⟨_, _, encodeChar_two (by omega) two, begins⟩
  by_cases three : n < 0x10000
  · have lead := toNat_byte (n := 0xe0 + n / 0x1000) (by omega)
    have begins := @Begins.three (UInt8.ofNat (0xe0 + n / 0x1000))
      (UInt8.ofNat (0x80 + n / 0x40 % 0x40)) (UInt8.ofNat (0x80 + n % 0x40)) rest (by omega)
      (by omega) (isSecond_iff.mpr (by omega)) (isContinuation_iff.mpr (by omega))
    rw [lead, middle, last] at begins
    have value : (0xe0 + n / 0x1000 - 0xe0) * 0x1000 + (0x80 + n / 0x40 % 0x40 - 0x80) * 0x40
        + (0x80 + n % 0x40 - 0x80) = n := by omega
    rw [value] at begins
    exact ⟨_, _, encodeChar_three (by omega) three scalar, begins⟩
  · have lead := toNat_byte (n := 0xf0 + n / 0x40000) (by omega)
    have begins := @Begins.four (UInt8.ofNat (0xf0 + n / 0x40000))
      (UInt8.ofNat (0x80 + n / 0x1000 % 0x40)) (UInt8.ofNat (0x80 + n / 0x40 % 0x40))
      (UInt8.ofNat (0x80 + n % 0x40)) rest (by omega) (by omega) (isSecond_iff.mpr (by omega))
      (isContinuation_iff.mpr (by omega)) (isContinuation_iff.mpr (by omega))
    rw [lead, third, middle, last] at begins
    have value : (0xf0 + n / 0x40000 - 0xf0) * 0x40000
        + (0x80 + n / 0x1000 % 0x40 - 0x80) * 0x1000 + (0x80 + n / 0x40 % 0x40 - 0x80) * 0x40
        + (0x80 + n % 0x40 - 0x80) = n := by omega
    rw [value] at begins
    exact ⟨_, _, encodeChar_four (by omega) scalar, begins⟩

/-- A byte below 128 in an encoding stands for the character of its value. -/
theorem eq_of_mem_encodeChar {c : Char} {b : UInt8} (h : b ∈ encodeChar c)
    (ascii : b.toNat < 0x80) : c = Char.ofNat b.toNat := by
  obtain ⟨lead, tail, encoded, begins⟩ := begins_encodeChar c []
  rw [encoded] at h
  rw [List.append_nil] at begins
  generalize width : tail.length = k at begins
  cases begins with
  | one _ =>
    rw [List.length_eq_zero_iff.mp width] at h
    rw [List.mem_singleton.mp h]
  | two lo _ second =>
    have bounds := isSecond_iff.mp second
    obtain rfl := List.length_eq_zero_iff.mp (Nat.succ.inj width)
    simp only [List.mem_cons, List.not_mem_nil, or_false] at h
    rcases h with rfl | rfl <;> omega
  | three lo _ second third =>
    have bounds := isSecond_iff.mp second
    have bounds₂ := isContinuation_iff.mp third
    obtain rfl := List.length_eq_zero_iff.mp (Nat.succ.inj (Nat.succ.inj width))
    simp only [List.mem_cons, List.not_mem_nil, or_false] at h
    rcases h with rfl | rfl | rfl <;> omega
  | four lo _ second third fourth =>
    have bounds := isSecond_iff.mp second
    have bounds₂ := isContinuation_iff.mp third
    have bounds₃ := isContinuation_iff.mp fourth
    obtain rfl := List.length_eq_zero_iff.mp (Nat.succ.inj (Nat.succ.inj (Nat.succ.inj width)))
    simp only [List.mem_cons, List.not_mem_nil, or_false] at h
    rcases h with rfl | rfl | rfl | rfl <;> omega

theorem splitOn_append_of_not_mem {α : Type} [BEq α] [LawfulBEq α] {mark : α} {l : List α}
    (h : mark ∉ l) (m : List α) :
    (l ++ m).splitOn mark = (m.splitOn mark).modifyHead (l ++ ·) := by
  induction l with
  | nil =>
    cases hm : m.splitOn mark with
    | nil => exact absurd hm (List.splitOn_ne_nil mark m)
    | cons piece pieces => simp [hm]
  | cons a l ih =>
    have apart : ¬ (a == mark) = true := by
      intro same
      exact h (eq_of_beq same ▸ List.mem_cons_self)
    rw [List.cons_append, List.splitOn_cons_eq_if_modifyHead, if_neg apart,
      ih (fun later => h (List.mem_cons_of_mem a later)), List.modifyHead_modifyHead]
    rfl

/-- An encoding is cut at a byte below 128 where the text is cut at its character. -/
theorem splitOn_encodeChars {mark : UInt8} (ascii : mark.toNat < 0x80) (cs : List Char) :
    (encodeChars cs).splitOn mark =
      (cs.splitOn (Char.ofNat mark.toNat)).map encodeChars := by
  induction cs with
  | nil => rfl
  | cons c cs ih =>
    have front : encodeChars (c :: cs) = encodeChar c ++ encodeChars cs := rfl
    rw [front]
    by_cases same : c = Char.ofNat mark.toNat
    · have single : encodeChar c = [mark] := by
        rw [same, encodeChar_one ascii, (byte_eq_iff (by omega) mark).mpr rfl]
      rw [single, List.singleton_append, List.splitOn_cons_eq_if_modifyHead, if_pos (by simp), ih]
      rw [List.splitOn_cons_eq_if_modifyHead, if_pos (by simpa using same)]
      rfl
    · have absent : mark ∉ encodeChar c := fun h => same (eq_of_mem_encodeChar h ascii)
      rw [splitOn_append_of_not_mem absent, ih, List.splitOn_cons_eq_if_modifyHead,
        if_neg (by simpa using same)]
      cases hcs : cs.splitOn (Char.ofNat mark.toNat) with
      | nil => exact absurd hcs (List.splitOn_ne_nil _ cs)
      | cons piece pieces => rfl

theorem decodeChars_append (c : Char) (rest : Bytes) :
    decodeChars (encodeChar c ++ rest) =
      match decodeChars rest with
      | .error valid => .error ((encodeChar c).length + valid)
      | .ok cs => .ok (c :: cs) := by
  obtain ⟨b, tail, encoded, begins⟩ := begins_encodeChar c rest
  rw [encoded, List.cons_append, decodeChars, readChar_of_begins begins]
  cases later : decodeChars rest with
  | error valid => simp only [List.drop_left, List.length_cons, Nat.add_comm tail.length 1, later]
  | ok cs => simp only [List.drop_left, later]

theorem decodeChars_encodeChars (cs : List Char) : decodeChars (encodeChars cs) = .ok cs := by
  induction cs with
  | nil => simp [encodeChars, decodeChars]
  | cons c cs ih =>
    have step := decodeChars_append c (encodeChars cs)
    rw [ih] at step
    exact step

theorem decodeChars_eq_ok_iff {bytes : Bytes} {cs : List Char} :
    decodeChars bytes = .ok cs ↔ bytes = encodeChars cs := by
  constructor
  · induction bytes using decodeChars.induct generalizing cs with
    | case1 =>
      intro h
      rw [decodeChars] at h
      cases h
      rfl
    | case2 b rest k hk =>
      intro h
      rw [decodeChars, hk] at h
      cases h
    | case3 b rest c k hread valid hlater =>
      intro h
      simp [decodeChars, hread, hlater] at h
    | case4 b rest c k hread later hlater ih =>
      intro h
      simp only [decodeChars, hread, hlater, Except.ok.injEq] at h
      have split := encodeChar_append_of_begins (begins_of_readChar hread)
      rw [← split, ← h, ih hlater]
      rfl
  · rintro rfl
    exact decodeChars_encodeChars cs

theorem decode_eq_ok_iff {bytes : Bytes} {text : String} :
    decode bytes = .ok text ↔ bytes = encode text := by
  have chars : decode bytes = .ok text ↔ decodeChars bytes = .ok text.toList := by
    unfold decode
    cases decodeChars bytes with
    | error valid => simp [Except.map]
    | ok cs =>
      simp only [Except.map, Except.ok.injEq]
      exact ⟨fun h => h ▸ String.toList_ofList.symm, fun h => h ▸ String.ofList_toList⟩
  rw [chars, decodeChars_eq_ok_iff]
  rfl

theorem eq_of_encode_eq {text text' : String} (same : encode text = encode text') :
    text = text' := by
  have back : decode (encode text) = .ok text' := decode_eq_ok_iff.mpr same
  rw [decode_eq_ok_iff.mpr rfl] at back
  exact Except.ok.inj back

/-- The bytes are the encoding of some text. -/
def IsText (bytes : Bytes) : Prop := ∃ text, bytes = encode text

theorem isText_iff {bytes : Bytes} : IsText bytes ↔ ∀ valid, decode bytes ≠ .error valid := by
  constructor
  · rintro ⟨text, h⟩ valid bad
    rw [decode_eq_ok_iff.mpr h] at bad
    cases bad
  · intro h
    cases hd : decode bytes with
    | error valid => exact absurd hd (h valid)
    | ok text => exact ⟨text, decode_eq_ok_iff.mp hd⟩

end BasicBlocks.Utf8
