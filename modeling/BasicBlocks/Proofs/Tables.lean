import Mathlib.Data.List.Forall2
import Mathlib.Data.List.Nodup
import BasicBlocks.Table

/-!
# Tables through their look-ups

A table is determined by its look-ups, its entries are exactly what the look-ups give, and a table
made from a list gives for each key the value that stands last for it in the list. A table that has
moved to other keys is recognised by its look-ups as well.
-/

namespace BasicBlocks

universe u v

variable {α : Type u} {β : Type v}

theorem exists_right_of_forall₂ {R : α → β → Prop} {l : List α} {m : List β}
    (h : List.Forall₂ R l m) {a : α} (ha : a ∈ l) : ∃ b ∈ m, R a b := by
  induction h with
  | nil => cases ha
  | cons first _ ih =>
    rcases List.mem_cons.mp ha with rfl | ha
    · exact ⟨_, List.mem_cons_self, first⟩
    · obtain ⟨b, hb, related⟩ := ih ha
      exact ⟨b, List.mem_cons_of_mem _ hb, related⟩

theorem exists_left_of_forall₂ {R : α → β → Prop} {l : List α} {m : List β}
    (h : List.Forall₂ R l m) {b : β} (hb : b ∈ m) : ∃ a ∈ l, R a b :=
  exists_right_of_forall₂ h.flip hb

theorem exists_forall₂ {R : α → β → Prop} {l : List α} (total : ∀ a ∈ l, ∃ b, R a b) :
    ∃ m, List.Forall₂ R l m := by
  induction l with
  | nil => exact ⟨[], .nil⟩
  | cons a rest ih =>
    obtain ⟨b, related⟩ := total a List.mem_cons_self
    obtain ⟨m, later⟩ := ih fun c hc => total c (List.mem_cons_of_mem a hc)
    exact ⟨b :: m, .cons related later⟩

theorem mapM_eq_some_map {f : α → Option β} {g : α → β} {l : List α}
    (each : ∀ a ∈ l, f a = some (g a)) : l.mapM f = some (l.map g) := by
  induction l with
  | nil => rfl
  | cons a rest ih =>
    obtain ⟨first, others⟩ := List.forall_mem_cons.mp each
    simp [List.mapM_cons, first, ih others]

/-- An element with what stands before it is the head, or stands in the tail. -/
theorem exists_split_cons {P : List α → α → Prop} {a : α} {l : List α} :
    (∃ before b after, a :: l = before ++ b :: after ∧ P before b) ↔
      P [] a ∨ ∃ before b after, l = before ++ b :: after ∧ P (a :: before) b := by
  constructor
  · rintro ⟨before, b, after, heq, holds⟩
    cases before with
    | nil =>
      obtain ⟨rfl, rfl⟩ := List.cons.inj heq
      exact Or.inl holds
    | cons c before =>
      obtain ⟨rfl, rfl⟩ := List.cons.inj heq
      exact Or.inr ⟨before, b, after, rfl, holds⟩
  · rintro (holds | ⟨before, b, after, rfl, holds⟩)
    · exact ⟨[], a, l, rfl, holds⟩
    · exact ⟨a :: before, b, after, rfl, holds⟩

/-- The first bad element of a list is its head, or the first bad one after a good head. -/
theorem exists_split_cons_iff {good bad : α → Prop} {a : α} {l : List α} :
    (∃ before b after, a :: l = before ++ b :: after ∧ (∀ c ∈ before, good c) ∧ bad b) ↔
      bad a ∨ good a ∧
        ∃ before b after, l = before ++ b :: after ∧ (∀ c ∈ before, good c) ∧ bad b := by
  refine exists_split_cons.trans (or_congr (by simp) ?_)
  constructor
  · rintro ⟨before, b, after, heq, hgood, hbad⟩
    exact ⟨hgood a List.mem_cons_self, before, b, after, heq,
      fun c hc => hgood c (List.mem_cons_of_mem a hc), hbad⟩
  · rintro ⟨hgood, before, b, after, heq, hbefore, hbad⟩
    exact ⟨before, b, after, heq, List.forall_mem_cons.mpr ⟨hgood, hbefore⟩, hbad⟩

namespace Table

theorem nodup_keys (t : Table α) : t.keys.Nodup := by
  have distinct : t.entries.Pairwise fun a b => a.1 ≠ b.1 :=
    t.ascending.imp fun h => UInt64.ne_of_lt h
  exact List.pairwise_map.mpr distinct

theorem key_injective (t : Table α) {e f : Word × α} (he : e ∈ t.entries) (hf : f ∈ t.entries)
    (same : e.1 = f.1) : e = f :=
  List.inj_on_of_nodup_map t.nodup_keys he hf same

theorem nodup_entries (t : Table α) : t.entries.Nodup :=
  List.Nodup.of_map _ t.nodup_keys

theorem mem_entries_iff (t : Table α) (k : Word) (v : α) :
    (k, v) ∈ t.entries ↔ t.get? k = some v := by
  constructor
  · intro h
    cases found : t.get? k with
    | none =>
      have absent := List.lookup_eq_none_iff.mp found (k, v) h
      simp at absent
    | some w =>
      obtain ⟨before, after, heq, _⟩ := List.lookup_eq_some_iff.mp found
      have hw : (k, w) ∈ t.entries := by simp [heq]
      have same := t.key_injective h hw rfl
      exact congrArg (fun e => some e.2) same.symm
  · intro h
    obtain ⟨before, after, heq, _⟩ := List.lookup_eq_some_iff.mp h
    simp [heq]

theorem mem_keys_iff (t : Table α) (k : Word) : k ∈ t.keys ↔ ∃ v, t.get? k = some v := by
  constructor
  · intro h
    obtain ⟨⟨key, v⟩, he, rfl⟩ := List.mem_map.mp h
    exact ⟨v, (t.mem_entries_iff key v).mp he⟩
  · rintro ⟨v, h⟩
    exact List.mem_map.mpr ⟨(k, v), (t.mem_entries_iff k v).mpr h, rfl⟩

theorem ext_entries {t u : Table α} (h : t.entries = u.entries) : t = u := by
  cases t
  cases u
  cases h
  rfl

/-- Equal look-ups give equal tables: both entry lists ascend. -/
theorem ext_get? {t u : Table α} (h : ∀ k, t.get? k = u.get? k) : t = u := by
  have same : ∀ e, e ∈ t.entries ↔ e ∈ u.entries := by
    rintro ⟨k, v⟩
    rw [mem_entries_iff, mem_entries_iff, h k]
  have perm : t.entries.Perm u.entries :=
    (List.perm_ext_iff_of_nodup t.nodup_entries u.nodup_entries).mpr same
  apply ext_entries
  refine perm.eq_of_pairwise ?_ t.ascending u.ascending
  intro a b _ _ hab hba
  exact absurd hab (UInt64.lt_asymm hba)

theorem lookup_map_value {κ : Type} [BEq κ] (f : α → β) (entries : List (κ × α)) (k : κ) :
    (entries.map fun e => (e.1, f e.2)).lookup k = (entries.lookup k).map f := by
  induction entries with
  | nil => rfl
  | cons e rest ih =>
    obtain ⟨key, v⟩ := e
    simp only [List.map_cons, List.lookup_cons, ih]
    cases k == key <;> rfl

theorem get?_map (t : Table α) (f : α → β) (k : Word) :
    (t.map f).get? k = (t.get? k).map f :=
  lookup_map_value f t.entries k

/-- The entry that stands last for its key in a list. -/
def IsLast (entries : List (Word × α)) (k : Word) (v : α) : Prop :=
  ∃ before after, entries = before ++ (k, v) :: after ∧ ∀ e ∈ after, e.1 ≠ k

theorem get?_ofList_iff (entries : List (Word × α)) (k : Word) (v : α) :
    (ofList entries).get? k = some v ↔ IsLast entries k v := by
  rw [get?_ofList, List.lookup_eq_some_iff]
  constructor
  · rintro ⟨later, earlier, heq, hlater⟩
    refine ⟨earlier.reverse, later.reverse, ?_, ?_⟩
    · rw [← List.reverse_reverse entries, heq]
      simp
    · intro e he same
      have := hlater e (List.mem_reverse.mp he)
      simp [same] at this
  · rintro ⟨before, after, rfl, hafter⟩
    refine ⟨after.reverse, before.reverse, by simp, ?_⟩
    intro e he
    have := hafter e (List.mem_reverse.mp he)
    simpa using Ne.symm this

theorem IsLast.mem {entries : List (Word × α)} {k : Word} {v : α} (h : IsLast entries k v) :
    (k, v) ∈ entries := by
  obtain ⟨before, after, rfl, _⟩ := h
  simp

/-- Every key of a list has an entry that stands last. -/
theorem exists_isLast {entries : List (Word × α)} {k : Word} {v : α} (h : (k, v) ∈ entries) :
    ∃ w, IsLast entries k w := by
  cases found : (ofList entries).get? k with
  | some w => exact ⟨w, (get?_ofList_iff entries k w).mp found⟩
  | none =>
    rw [get?_ofList, List.lookup_eq_none_iff] at found
    have := found (k, v) (List.mem_reverse.mpr h)
    simp at this

theorem mem_keys_ofList_iff (entries : List (Word × α)) (k : Word) :
    k ∈ (ofList entries).keys ↔ ∃ v, (k, v) ∈ entries := by
  simp only [mem_keys_iff, get?_ofList_iff]
  constructor
  · rintro ⟨v, h⟩
    exact ⟨v, h.mem⟩
  · rintro ⟨v, h⟩
    exact exists_isLast h

theorem get?_ofList_of_agree {entries : List (Word × α)} (agree : ∀ k v w,
    (k, v) ∈ entries → (k, w) ∈ entries → v = w) (k : Word) (v : α) :
    (ofList entries).get? k = some v ↔ (k, v) ∈ entries := by
  rw [get?_ofList_iff]
  constructor
  · exact IsLast.mem
  · intro h
    obtain ⟨w, hw⟩ := exists_isLast h
    exact agree k w v hw.mem h ▸ hw

/-- A table is made from its entries in any order. -/
theorem ofList_of_perm {entries : List (Word × α)} {t : Table α} (h : entries.Perm t.entries) :
    ofList entries = t := by
  apply ext_get?
  intro k
  refine Option.ext fun v => ?_
  rw [get?_ofList_of_agree, h.mem_iff, mem_entries_iff]
  intro a v w hv hw
  exact congrArg Prod.snd (t.key_injective (h.mem_iff.mp hv) (h.mem_iff.mp hw) rfl)

theorem insertAscending_of_lt {k : Word} {v : α} {entries : List (Word × α)}
    (h : ∀ e ∈ entries, k < e.1) : insertAscending k v entries = (k, v) :: entries := by
  cases entries with
  | nil => rfl
  | cons head rest =>
    have lower : k < head.1 := h head List.mem_cons_self
    rw [insertAscending, if_pos lower]

/-- A list that ascends is taken over as it is. -/
theorem entries_ofList {entries : List (Word × α)} (h : Ascending entries) :
    (ofList entries).entries = entries := by
  induction entries with
  | nil => rfl
  | cons head rest ih =>
    have above : ∀ e ∈ rest, head.1 < e.1 := fun e he => List.rel_of_pairwise_cons h he
    have hrest : (ofList rest).entries = rest := ih (List.Pairwise.of_cons h)
    change insertAscending head.1 head.2 (ofList rest).entries = head :: rest
    rw [hrest]
    exact insertAscending_of_lt above

/-- Each entry has moved to another key, with a value that has moved along. No entry is lost or
merged with another; they may stand in another order. -/
def Relocates (place : Word → Option Word) (R : α → β → Prop) (t : Table α)
    (u : Table β) : Prop :=
  ∃ moved, List.Forall₂ (fun e f => place e.1 = some f.1 ∧ R e.2 f.2) t.entries moved ∧
    moved.Perm u.entries

/-- It is enough that look-ups agree both ways, if no two keys move to one. -/
theorem relocates_of_get? {place : Word → Option Word} {R : α → β → Prop} {t : Table α}
    {u : Table β} (apart : ∀ a b k, place a = some k → place b = some k → a = b)
    (forth : ∀ a v, t.get? a = some v → ∃ k w, place a = some k ∧ u.get? k = some w ∧ R v w)
    (back : ∀ k w, u.get? k = some w → ∃ a v, place a = some k ∧ t.get? a = some v) :
    t.Relocates place R u := by
  -- The pairs remember that both entries are listed: only then do their keys tell them apart.
  have total : ∀ e ∈ t.entries, ∃ f : Word × β,
      e ∈ t.entries ∧ f ∈ u.entries ∧ place e.1 = some f.1 ∧ R e.2 f.2 := by
    rintro ⟨a, v⟩ he
    obtain ⟨k, w, moved, found, related⟩ := forth a v ((t.mem_entries_iff a v).mp he)
    exact ⟨(k, w), he, (u.mem_entries_iff k w).mpr found, moved, related⟩
  obtain ⟨moved, pairs⟩ := exists_forall₂ total
  refine ⟨moved, pairs.imp fun _ _ h => h.2.2, ?_⟩
  have distinct : moved.Nodup := by
    refine (List.rel_nodup ⟨?_, ?_⟩ pairs).mp t.nodup_entries
    · rintro e e' f ⟨he, _, left, _⟩ ⟨he', _, right, _⟩
      exact t.key_injective he he' (apart _ _ _ left right)
    · rintro e f f' ⟨_, hf, left, _⟩ ⟨_, hf', right, _⟩
      exact u.key_injective hf hf' (Option.some.inj (left.symm.trans right))
  refine (List.perm_ext_iff_of_nodup distinct u.nodup_entries).mpr ?_
  rintro ⟨k, w⟩
  constructor
  · intro hf
    obtain ⟨e, _, _, found, _⟩ := exists_left_of_forall₂ pairs hf
    exact found
  · intro found
    obtain ⟨a, v, left, hv⟩ := back k w ((u.mem_entries_iff k w).mp found)
    obtain ⟨f, hf, _, found', right, _⟩ :=
      exists_right_of_forall₂ pairs ((t.mem_entries_iff a v).mpr hv)
    have same : f = (k, w) :=
      u.key_injective found' found (Option.some.inj (right.symm.trans left))
    exact same ▸ hf

theorem Relocates.forth {place : Word → Option Word} {R : α → β → Prop} {t : Table α}
    {u : Table β} (h : t.Relocates place R u) {a : Word} {v : α} (hv : t.get? a = some v) :
    ∃ k w, place a = some k ∧ u.get? k = some w ∧ R v w := by
  obtain ⟨moved, pairs, perm⟩ := h
  obtain ⟨⟨k, w⟩, hf, left, related⟩ :=
    exists_right_of_forall₂ pairs ((t.mem_entries_iff a v).mpr hv)
  exact ⟨k, w, left, (u.mem_entries_iff k w).mp (perm.mem_iff.mp hf), related⟩

theorem Relocates.back {place : Word → Option Word} {R : α → β → Prop} {t : Table α}
    {u : Table β} (h : t.Relocates place R u) {k : Word} {w : β} (hw : u.get? k = some w) :
    ∃ a v, place a = some k ∧ t.get? a = some v ∧ R v w := by
  obtain ⟨moved, pairs, perm⟩ := h
  obtain ⟨⟨a, v⟩, he, left, related⟩ :=
    exists_left_of_forall₂ pairs (perm.mem_iff.mpr ((u.mem_entries_iff k w).mpr hw))
  exact ⟨a, v, left, (t.mem_entries_iff a v).mp he, related⟩

end Table
end BasicBlocks
