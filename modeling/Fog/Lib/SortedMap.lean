import Mathlib

/-!
# Sorted maps

A finite map over a linear order kept as the list of its entries in strictly
increasing key order, the representation behind an ordered map container:
iteration visits the entries by increasing key, each key at most once.
Insertion overwrites the value of a present key in place and keeps the order,
so writing through a mutable reference to a present entry is an insertion at
its key.

The structure carries its sortedness, so a lookup and a membership test of the
entry list agree: this is what lets an invariant be stated over the values
(what iteration visits) and used at a key (what a lookup returns).

Main results:

- Theorem {lit}`SortedMap.get?_insert`: a lookup after an insertion.
- Theorem {lit}`SortedMap.get?_of_mem`: an entry of the list is what a lookup
  of its key returns.
- Theorem {lit}`SortedMap.mem_values_iff`: the values are exactly what the
  lookups return.
-/

/-- A finite map stored as its entries in strictly increasing key order. -/
structure SortedMap (κ : Type _) [LinearOrder κ] (β : Type _) where
  /-- The entries by increasing key. -/
  entries : List (κ × β)
  /-- Each key is below every later one, so no key appears twice. -/
  sorted : entries.Pairwise fun a b => a.1 < b.1

namespace SortedMap

variable {κ β : Type _} [LinearOrder κ]

/-- The map with no entry. -/
def empty : SortedMap κ β :=
  ⟨[], List.Pairwise.nil⟩

/-- The value stored at a key. -/
def get? (m : SortedMap κ β) (k : κ) : Option β :=
  (m.entries.find? fun e => decide (e.1 = k)).map Prod.snd

/-- The values in increasing key order, as iteration visits them. -/
def values (m : SortedMap κ β) : List β :=
  m.entries.map Prod.snd

/-- Insert an entry into a key-sorted list: before the first larger key, or in
place of an entry with the same key. -/
def insertEntry (k : κ) (v : β) : List (κ × β) → List (κ × β)
  | [] => [(k, v)]
  | e :: es =>
      if k < e.1 then (k, v) :: e :: es
      else if k = e.1 then (k, v) :: es
      else e :: insertEntry k v es

/-- An entry of the list after an insertion is the new entry or an old one. -/
theorem mem_insertEntry {k : κ} {v : β} {x : κ × β} :
    ∀ {es : List (κ × β)}, x ∈ insertEntry k v es → x = (k, v) ∨ x ∈ es
  | [], h => Or.inl (List.mem_singleton.1 h)
  | e :: es, h => by
      unfold insertEntry at h
      split at h
      · exact List.mem_cons.1 h
      · split at h
        · rcases List.mem_cons.1 h with rfl | hx
          · exact Or.inl rfl
          · exact Or.inr (List.mem_cons_of_mem e hx)
        · rcases List.mem_cons.1 h with rfl | hx
          · exact Or.inr List.mem_cons_self
          · rcases mem_insertEntry hx with hkv | hes
            · exact Or.inl hkv
            · exact Or.inr (List.mem_cons_of_mem e hes)

/-- Insertion keeps the keys strictly increasing. -/
theorem pairwise_insertEntry (k : κ) (v : β) :
    ∀ {es : List (κ × β)}, es.Pairwise (fun a b => a.1 < b.1) →
      (insertEntry k v es).Pairwise fun a b => a.1 < b.1
  | [], _ => List.pairwise_singleton _ _
  | e :: es, hes => by
      obtain ⟨hhead, htail⟩ := List.pairwise_cons.1 hes
      unfold insertEntry
      split
      · rename_i hlt
        refine List.Pairwise.cons (fun x hx => ?_) hes
        rcases List.mem_cons.1 hx with rfl | hx
        · exact hlt
        · exact lt_trans hlt (hhead x hx)
      · split
        · rename_i heq
          refine List.Pairwise.cons (fun x hx => ?_) htail
          rw [heq]
          exact hhead x hx
        · rename_i hnlt hne
          have hgt : e.1 < k := lt_of_le_of_ne (not_lt.1 hnlt) (Ne.symm hne)
          refine List.Pairwise.cons (fun x hx => ?_) (pairwise_insertEntry k v htail)
          rcases mem_insertEntry hx with rfl | hx
          · exact hgt
          · exact hhead x hx

/-- Store a value at a key, replacing the value stored there if any. -/
def insert (m : SortedMap κ β) (k : κ) (v : β) : SortedMap κ β :=
  ⟨insertEntry k v m.entries, pairwise_insertEntry k v m.sorted⟩

/-- The empty map has no key. -/
@[simp]
theorem get?_empty (k : κ) : (empty : SortedMap κ β).get? k = none :=
  rfl

/-- The empty map has no value. -/
@[simp]
theorem values_empty : (empty : SortedMap κ β).values = [] :=
  rfl

/-- Searching after an insertion finds the new value at its key and the old
entries elsewhere. -/
theorem find?_insertEntry (k k' : κ) (v : β) :
    ∀ es : List (κ × β),
      ((insertEntry k v es).find? fun e => decide (e.1 = k')).map Prod.snd =
        if k' = k then some v else (es.find? fun e => decide (e.1 = k')).map Prod.snd
  | [] => by
      by_cases hk : k' = k
      · simp [insertEntry, hk]
      · simp [insertEntry, Ne.symm hk, hk]
  | e :: es => by
      unfold insertEntry
      by_cases hlt : k < e.1
      · by_cases hk : k' = k
        · simp [hlt, hk]
        · simp [hlt, hk, Ne.symm hk]
      · by_cases heq : k = e.1
        · rw [if_neg hlt, if_pos heq, List.find?_cons, List.find?_cons]
          by_cases hk : k' = k
          · simp [hk, heq]
          · have hne : e.1 ≠ k' := by rw [← heq]; exact Ne.symm hk
            simp [hk, Ne.symm hk, hne]
        · rw [if_neg hlt, if_neg heq, List.find?_cons, List.find?_cons]
          by_cases hk : e.1 = k'
          · have hne : k' ≠ k := by rw [← hk]; exact Ne.symm heq
            simp [hk, hne]
          · simp only [hk, decide_false]
            exact find?_insertEntry k k' v es

/-- A lookup after an insertion finds the inserted value at its key and the
old values elsewhere. -/
theorem get?_insert (m : SortedMap κ β) (k k' : κ) (v : β) :
    (m.insert k v).get? k' = if k' = k then some v else m.get? k' :=
  find?_insertEntry k k' v m.entries

/-- A key reads the value just inserted at it. -/
@[simp]
theorem get?_insert_self (m : SortedMap κ β) (k : κ) (v : β) :
    (m.insert k v).get? k = some v := by
  rw [get?_insert, if_pos rfl]

/-- An insertion leaves every other key. -/
theorem get?_insert_of_ne (m : SortedMap κ β) {k k' : κ} (v : β) (h : k' ≠ k) :
    (m.insert k v).get? k' = m.get? k' := by
  rw [get?_insert, if_neg h]

/-- An entry of a sorted list is the first one with its key. -/
theorem get?_of_mem {m : SortedMap κ β} {k : κ} {v : β} (h : (k, v) ∈ m.entries) :
    m.get? k = some v := by
  obtain ⟨es, hsorted⟩ := m
  unfold get?
  simp only
  induction es with
  | nil => cases h
  | cons e es ih =>
      obtain ⟨hhead, htail⟩ := List.pairwise_cons.1 hsorted
      rw [List.find?_cons]
      rcases List.mem_cons.1 h with rfl | hmem
      · simp
      · have hne : e.1 ≠ k := ne_of_lt (hhead (k, v) hmem)
        simp only [hne, decide_false]
        exact ih htail hmem

/-- What a lookup returns is an entry of the list. -/
theorem mem_of_get? {m : SortedMap κ β} {k : κ} {v : β} (h : m.get? k = some v) :
    (k, v) ∈ m.entries := by
  unfold get? at h
  obtain ⟨e, hfind, rfl⟩ := Option.map_eq_some_iff.1 h
  have hkey : e.1 = k := by
    have hp := List.find?_some hfind
    simpa using hp
  have hmem : e ∈ m.entries := List.mem_of_find?_eq_some hfind
  rw [← hkey]
  exact hmem

/-- The values are exactly what the lookups return. -/
theorem mem_values_iff {m : SortedMap κ β} {v : β} :
    v ∈ m.values ↔ ∃ k, m.get? k = some v := by
  unfold values
  rw [List.mem_map]
  constructor
  · rintro ⟨⟨k, v'⟩, hmem, rfl⟩
    exact ⟨k, get?_of_mem hmem⟩
  · rintro ⟨k, hk⟩
    exact ⟨(k, v), mem_of_get? hk, rfl⟩

end SortedMap
