import Mathlib.Data.List.Sort

/-!
# Reading a growing collection by a high-water mark

A reader that polls a growing collection of keyed items often remembers only
the largest key it has seen, its cursor, and asks each time for the items whose
key is above it.  A read returns those items in key order and moves the cursor
to the largest key returned.  This module defines one read and what a reader
has been given after any sequence of reads and of arrivals of new items.

Whatever the arrivals, the reader never gets an item twice or out of order: what
it holds is a sublist of the collection in key order.  It gets every item when,
and only when, items arrive above its cursor: an item that arrives with a key
the cursor has already passed is never read.

Main results:

- Theorems {lit}`Cursor.Delivered.read` and {lit}`Cursor.Delivered.grow`: a read
  and an arrival keep what was delivered strictly increasing, present and at
  or below the cursor.
- Theorem {lit}`Cursor.Delivered.sublist_insertionSort`: what was delivered is a
  sublist of the collection in key order.
- Theorems {lit}`Cursor.Complete.read` and {lit}`Cursor.Complete.grow`: when
  items arrive only above the cursor, the reader holds every item up to it.
- Theorem {lit}`Cursor.Complete.eq_filter`: it then holds exactly the items up
  to its cursor, in key order.
-/

namespace Cursor

variable {α κ : Type _} [LinearOrder κ] (key : α → κ)

/-- The items above the cursor, in key order. -/
def above (items : List α) (c : κ) : List α :=
  (items.filter fun a => c < key a).insertionSort fun a b => key a ≤ key b

/-- The cursor after a read: the largest key above it, or the cursor itself if
there is none. -/
def advance (items : List α) (c : κ) : κ :=
  (items.filter fun a => c < key a).foldl (fun m a => max m (key a)) c

variable {key}

/-- The items above a cursor are those whose key is past it. -/
@[simp]
theorem mem_above {items : List α} {c : κ} {a : α} :
    a ∈ above key items c ↔ a ∈ items ∧ c < key a := by
  simp [above, List.mem_insertionSort]

/-- Sorting by key a list whose keys are distinct orders it strictly. -/
theorem pairwise_insertionSort_key {l : List α} (hkeys : (l.map key).Nodup) :
    (l.insertionSort fun a b => key a ≤ key b).Pairwise fun a b => key a < key b := by
  have : Std.Total fun a b : α => key a ≤ key b := ⟨fun a b => le_total (key a) (key b)⟩
  have : IsTrans α fun a b => key a ≤ key b := ⟨fun _ _ _ => le_trans⟩
  have hle := List.pairwise_insertionSort (fun a b => key a ≤ key b) l
  have hne : (l.insertionSort fun a b => key a ≤ key b).Pairwise fun a b => key a ≠ key b :=
    List.pairwise_map.1 (((List.perm_insertionSort _ _).map key).nodup_iff.2 hkeys)
  exact (hle.and hne).imp fun h => lt_of_le_of_ne h.1 h.2

/-- A list strictly increasing in key has no repeated item. -/
theorem nodup_of_pairwise_key {l : List α} (h : l.Pairwise fun a b => key a < key b) :
    l.Nodup := by
  refine h.imp ?_
  rintro a b hlt rfl
  exact lt_irrefl _ hlt

/-- With distinct keys, the items a read returns are in strictly increasing key
order. -/
theorem pairwise_above {items : List α} (hkeys : (items.map key).Nodup) (c : κ) :
    (above key items c).Pairwise fun a b => key a < key b :=
  pairwise_insertionSort_key (hkeys.sublist (List.filter_sublist.map key))

/-- A running maximum never falls below its start. -/
theorem le_foldl_max (l : List α) (c : κ) : c ≤ l.foldl (fun m a => max m (key a)) c := by
  induction l generalizing c with
  | nil => exact le_rfl
  | cons a l ih => exact (le_max_left c (key a)).trans (ih _)

/-- A running maximum is at least every key it ran over. -/
theorem key_le_foldl_max {l : List α} {a : α} (ha : a ∈ l) (c : κ) :
    key a ≤ l.foldl (fun m a => max m (key a)) c := by
  induction l generalizing c with
  | nil => simp at ha
  | cons b l ih =>
      rcases List.mem_cons.1 ha with rfl | ha
      · exact (le_max_right c (key a)).trans (le_foldl_max l _)
      · exact ih ha _

/-- A running maximum stays below any bound of its start and of every key. -/
theorem foldl_max_le {l : List α} {c b : κ} (hc : c ≤ b) (hl : ∀ a ∈ l, key a ≤ b) :
    l.foldl (fun m a => max m (key a)) c ≤ b := by
  induction l generalizing c with
  | nil => exact hc
  | cons a l ih =>
      exact ih (max_le hc (hl a List.mem_cons_self)) fun x hx => hl x (List.mem_cons_of_mem a hx)

/-- Advancing never moves the cursor back. -/
theorem le_advance (items : List α) (c : κ) : c ≤ advance key items c :=
  le_foldl_max _ c

/-- Every item above the cursor is at or below the cursor after the read. -/
theorem key_le_advance {items : List α} {c : κ} {a : α} (ha : a ∈ items) (hc : c < key a) :
    key a ≤ advance key items c :=
  key_le_foldl_max (List.mem_filter.2 ⟨ha, decide_eq_true hc⟩) c

/-- Every item is at or below the cursor after a read. -/
theorem le_advance_of_mem {items : List α} {c : κ} {a : α} (ha : a ∈ items) :
    key a ≤ advance key items c := by
  rcases le_or_gt (key a) c with hle | hlt
  · exact hle.trans (le_advance items c)
  · exact key_le_advance ha hlt

/-- A bound of the cursor and of every key above it bounds the cursor after the
read. -/
theorem advance_le {items : List α} {c b : κ} (hc : c ≤ b)
    (hb : ∀ a ∈ items, c < key a → key a ≤ b) : advance key items c ≤ b :=
  foldl_max_le hc fun a ha => by
    obtain ⟨ha, hlt⟩ := List.mem_filter.1 ha
    exact hb a ha (of_decide_eq_true hlt)

/-- With every key at or below the cursor, a read returns nothing. -/
theorem above_eq_nil {items : List α} {c : κ} (h : ∀ a ∈ items, key a ≤ c) :
    above key items c = [] := by
  have hnone : (items.filter fun a => c < key a) = [] := by
    rw [List.filter_eq_nil_iff]
    intro a ha
    simpa using h a ha
  rw [above, hnone, List.insertionSort_nil]

/-- With every key at or below the cursor, a read leaves the cursor where it is. -/
theorem advance_eq_self {items : List α} {c : κ} (h : ∀ a ∈ items, key a ≤ c) :
    advance key items c = c :=
  le_antisymm (advance_le le_rfl fun a ha hlt => absurd (h a ha) (not_le.2 hlt)) (le_advance _ _)

/-! ## What a reader has been given -/

variable (key) in
/-- What a reader holds after reads of a collection: items of the collection, in
strictly increasing key order, none above the cursor. -/
structure Delivered (items : List α) (c : κ) (d : List α) : Prop where
  pairwise : d.Pairwise fun a b => key a < key b
  mem : ∀ a ∈ d, a ∈ items
  le : ∀ a ∈ d, key a ≤ c

/-- Nothing delivered is a delivery from any cursor. -/
theorem Delivered.nil (items : List α) (c : κ) : Delivered key items c [] :=
  ⟨List.Pairwise.nil, fun _ h => absurd h List.not_mem_nil, fun _ h => absurd h List.not_mem_nil⟩

/-- Step lemma of a read: the items above the cursor are appended and the
cursor advances. -/
theorem Delivered.read {items : List α} {c : κ} {d : List α} (h : Delivered key items c d)
    (hkeys : (items.map key).Nodup) :
    Delivered key items (advance key items c) (d ++ above key items c) where
  pairwise := List.pairwise_append.2 ⟨h.pairwise, pairwise_above hkeys c,
    fun a ha b hb => lt_of_le_of_lt (h.le a ha) (mem_above.1 hb).2⟩
  mem a ha := by
    rcases List.mem_append.1 ha with ha | ha
    · exact h.mem a ha
    · exact (mem_above.1 ha).1
  le a ha := by
    rcases List.mem_append.1 ha with ha | ha
    · exact (h.le a ha).trans (le_advance _ _)
    · exact key_le_advance (mem_above.1 ha).1 (mem_above.1 ha).2

/-- Step lemma of an arrival: new items change nothing the reader holds. -/
theorem Delivered.grow {items items' : List α} {c : κ} {d : List α}
    (h : Delivered key items c d) (hsub : items ⊆ items') : Delivered key items' c d :=
  ⟨h.pairwise, fun a ha => hsub (h.mem a ha), h.le⟩

/-- With distinct keys, what a reader holds is a sublist of the collection in
key order: no item twice and none out of order. -/
theorem Delivered.sublist_insertionSort {items : List α} {c : κ} {d : List α}
    (h : Delivered key items c d) (hkeys : (items.map key).Nodup) :
    List.Sublist d (items.insertionSort fun a b => key a ≤ key b) := by
  have hsub : List.Subperm d (items.insertionSort fun a b => key a ≤ key b) :=
    (List.subperm_of_subset (nodup_of_pairwise_key h.pairwise) h.mem).trans
      (List.perm_insertionSort _ _).symm.subperm
  have : Std.Antisymm fun a b : α => key a < key b :=
    ⟨fun _ _ hab hba => absurd (hab.trans hba) (lt_irrefl _)⟩
  exact List.sublist_of_subperm_of_pairwise hsub h.pairwise (pairwise_insertionSort_key hkeys)

/-! ## A reader that misses nothing -/

variable (key) in
/-- A reader that misses nothing: besides what {lit}`Delivered` says, it holds
every item up to its cursor. -/
structure Complete (items : List α) (c : κ) (d : List α) : Prop extends Delivered key items c d where
  mem_of_le : ∀ a ∈ items, key a ≤ c → a ∈ d

/-- When every item is past the cursor, nothing delivered is complete. -/
theorem Complete.nil {items : List α} {c : κ} (h : ∀ a ∈ items, c < key a) :
    Complete key items c [] :=
  ⟨Delivered.nil items c, fun a ha hle => absurd (h a ha) (not_lt.2 hle)⟩

/-- Step lemma of a read for a reader that misses nothing. -/
theorem Complete.read {items : List α} {c : κ} {d : List α} (h : Complete key items c d)
    (hkeys : (items.map key).Nodup) :
    Complete key items (advance key items c) (d ++ above key items c) where
  toDelivered := h.toDelivered.read hkeys
  mem_of_le a ha _ := by
    rcases le_or_gt (key a) c with hle | hlt
    · exact List.mem_append_left _ (h.mem_of_le a ha hle)
    · exact List.mem_append_right _ (mem_above.2 ⟨ha, hlt⟩)

/-- Step lemma of an arrival: items that arrive above the cursor keep a reader
that misses nothing. -/
theorem Complete.grow {items items' : List α} {c : κ} {d : List α} (h : Complete key items c d)
    (hsub : items ⊆ items') (hnew : ∀ a ∈ items', a ∉ items → c < key a) :
    Complete key items' c d where
  toDelivered := h.toDelivered.grow hsub
  mem_of_le a ha hle := by
    by_cases hold : a ∈ items
    · exact h.mem_of_le a hold hle
    · exact absurd (hnew a ha hold) (not_lt.2 hle)

/-- A reader that misses nothing holds exactly the items up to its cursor, in key
order. -/
theorem Complete.eq_filter {items : List α} {c : κ} {d : List α} (h : Complete key items c d)
    (hkeys : (items.map key).Nodup) :
    d = (items.insertionSort fun a b => key a ≤ key b).filter fun a => key a ≤ c := by
  have hsorted := (pairwise_insertionSort_key hkeys).filter fun a => decide (key a ≤ c)
  have hmem : ∀ a, a ∈ d ↔ a ∈ (items.insertionSort fun a b => key a ≤ key b).filter
      fun a => key a ≤ c := by
    intro a
    simp only [List.mem_filter, List.mem_insertionSort, decide_eq_true_eq]
    exact ⟨fun ha => ⟨h.mem a ha, h.le a ha⟩, fun ha => h.mem_of_le a ha.1 ha.2⟩
  refine List.Perm.eq_of_pairwise (fun _ _ _ _ hab hba => absurd (hab.trans hba) (lt_irrefl _))
    h.pairwise hsorted ?_
  exact (List.perm_ext_iff_of_nodup (nodup_of_pairwise_key h.pairwise)
    (nodup_of_pairwise_key hsorted)).2 hmem

end Cursor
