import Mathlib.Algebra.Group.Nat.Defs
import Mathlib.Data.List.Pairwise
import Mathlib.Order.CompletePartialOrder
import Mathlib.Order.Interval.Set.Disjoint
import BasicBlocks.Header

/-!
# Sections apart

Where no two sections share addresses, the first section that covers an address is the only one.
Where they share no bytes of the file either, no two addresses have the same file offset.
-/

namespace BasicBlocks

namespace Section

/-- The addresses of a section, which may reach past the last word. -/
def addresses (s : Section) : Set Nat :=
  Set.Ico s.address.toNat (s.address.toNat + s.size.toNat)

/-- The bytes of a section in the file. -/
def offsets (s : Section) : Set Nat :=
  Set.Ico s.offset.toNat (s.offset.toNat + s.size.toNat)

theorem covers_iff_mem_addresses {s : Section} {a : Word} :
    s.covers a = true ↔ a.toNat ∈ s.addresses := by
  rw [covers_iff, addresses, Set.mem_Ico]

/-- Of sections that are apart, only one holds a given place. -/
theorem eq_of_apart {extent : Section → Set Nat} {sections : List Section}
    (apart : sections.Pairwise fun s t => Disjoint (extent s) (extent t)) {s t : Section}
    (hs : s ∈ sections) (ht : t ∈ sections) {n : Nat} (inLeft : n ∈ extent s)
    (inRight : n ∈ extent t) : s = t := by
  by_contra different
  have symmetric : Std.Symm fun s t => Disjoint (extent s) (extent t) := ⟨fun _ _ d => d.symm⟩
  have disjoint : Disjoint (extent s) (extent t) := apart.forall hs ht different
  exact Set.disjoint_left.mp disjoint inLeft inRight

end Section

namespace Header

/-- No two sections share addresses or bytes of the file, and all offsets are words. -/
structure IsLaidOut (h : Header) : Prop where
  addressesApart : h.sections.Pairwise fun s t => Disjoint s.addresses t.addresses
  offsetsApart : h.sections.Pairwise fun s t => Disjoint s.offsets t.offsets
  offsetsFit : ∀ s ∈ h.sections, s.offset.toNat + s.size.toNat ≤ 2 ^ 64 - 1

/-- The address lies in some section. -/
def Places (h : Header) (a : Word) : Prop := ∃ s ∈ h.sections, a.toNat ∈ s.addresses

theorem section_of_find? {h : Header} {a : Word} {s : Section}
    (found : h.sections.find? (·.covers a) = some s) :
    s ∈ h.sections ∧ a.toNat ∈ s.addresses := by
  have covered : s.covers a = true := by simpa using List.find?_some found
  exact ⟨List.mem_of_find?_eq_some found, Section.covers_iff_mem_addresses.mp covered⟩

/-- An offset is as far into the bytes of a section as its address is into the section. -/
theorem exists_section_of_fileOffset? {h : Header} {a k : Word} (placed : h.fileOffset? a = some k) :
    ∃ s ∈ h.sections, a.toNat ∈ s.addresses ∧
      k.toNat + s.address.toNat = a.toNat + s.offset.toNat := by
  obtain ⟨s, found, sum⟩ := Option.bind_eq_some_iff.mp placed
  obtain ⟨hs, within⟩ := section_of_find? found
  have lower : s.address.toNat ≤ a.toNat := within.1
  have total := Word.add?_eq_some_iff.mp sum
  rw [UInt64.toNat_sub_of_le _ _ (UInt64.le_iff_toNat_le.mpr lower)] at total
  exact ⟨s, hs, within, by omega⟩

theorem fileOffset?_of_mem {h : Header} (laidOut : h.IsLaidOut) {s : Section}
    (hs : s ∈ h.sections) {a : Word} (within : a.toNat ∈ s.addresses) :
    h.fileOffset? a = Word.add? s.offset (a - s.address) := by
  have covered : ∃ t ∈ h.sections, t.covers a = true :=
    ⟨s, hs, Section.covers_iff_mem_addresses.mpr within⟩
  obtain ⟨t, found⟩ := Option.isSome_iff_exists.mp (List.find?_isSome.mpr covered)
  obtain ⟨ht, alsoWithin⟩ := section_of_find? found
  have same : t = s := Section.eq_of_apart laidOut.addressesApart ht hs alsoWithin within
  rw [fileOffset?, found, same]
  rfl

/-- Within one section an offset is decided by the distance from the section's beginning. -/
theorem fileOffset?_eq_some_iff {h : Header} (laidOut : h.IsLaidOut) {s : Section}
    (hs : s ∈ h.sections) {a : Word} (within : a.toNat ∈ s.addresses) (k : Word) :
    h.fileOffset? a = some k ↔ k.toNat + s.address.toNat = a.toNat + s.offset.toNat := by
  have lower : s.address.toNat ≤ a.toNat := within.1
  rw [fileOffset?_of_mem laidOut hs within, Word.add?_eq_some_iff,
    UInt64.toNat_sub_of_le _ _ (UInt64.le_iff_toNat_le.mpr lower)]
  omega

theorem exists_fileOffset? {h : Header} (laidOut : h.IsLaidOut) {a : Word} (placed : h.Places a) :
    ∃ k, h.fileOffset? a = some k := by
  obtain ⟨s, hs, within⟩ := placed
  have bounds := Set.mem_Ico.mp within
  have room := laidOut.offsetsFit s hs
  have fits : a.toNat - s.address.toNat + s.offset.toNat < Word.bound := by
    rw [show Word.bound = 2 ^ 64 from rfl]
    omega
  refine ⟨UInt64.ofNat (a.toNat - s.address.toNat + s.offset.toNat), ?_⟩
  rw [fileOffset?_eq_some_iff laidOut hs within, Word.toNat_ofNat_of_lt fits]
  omega

/-- Where the sections share no bytes of the file, no two addresses meet at one offset. -/
theorem fileOffset?_injective {h : Header}
    (apart : h.sections.Pairwise fun s t => Disjoint s.offsets t.offsets) {a b k : Word}
    (ha : h.fileOffset? a = some k) (hb : h.fileOffset? b = some k) : a = b := by
  obtain ⟨s, hs, inLeft, left⟩ := exists_section_of_fileOffset? ha
  obtain ⟨t, ht, inRight, right⟩ := exists_section_of_fileOffset? hb
  have leftBounds := Set.mem_Ico.mp inLeft
  have rightBounds := Set.mem_Ico.mp inRight
  have same : s = t := by
    refine Section.eq_of_apart apart hs ht (n := k.toNat) ?_ ?_
    · exact Set.mem_Ico.mpr ⟨by omega, by omega⟩
    · exact Set.mem_Ico.mpr ⟨by omega, by omega⟩
  rw [← same] at right
  rw [← UInt64.toNat_inj]
  omega

end Header
end BasicBlocks
