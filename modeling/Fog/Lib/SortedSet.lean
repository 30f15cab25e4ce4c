import Mathlib.Data.List.Sort
import Mathlib.Data.List.Dedup

/-!
# Sorted sets

A finite set over a linear order kept as the strictly increasing list of its
elements, the representation behind an ordered set container: iteration
visits the elements in increasing order, and two sets are equal exactly when
their lists are.  The structure carries its sortedness, so every value is in
canonical form and set equality is decided by comparing lists.

Main results:

- Theorem {lit}`SortedSet.ext`: two sorted sets with the same elements are
  equal.
- Theorem {lit}`SortedSet.mem_ofList`: collecting a list keeps exactly the
  list's elements.
- Theorem {lit}`SortedSet.ofList_eq_iff`: a collected list is a given set
  exactly when they have the same elements.
-/

/-- A finite set stored as its elements in strictly increasing order. -/
structure SortedSet (α : Type _) [LinearOrder α] where
  /-- The elements in increasing order. -/
  toList : List α
  /-- Each element is below every later one, so there are no duplicates. -/
  sorted : toList.Pairwise (· < ·)

namespace SortedSet

variable {α : Type _} [LinearOrder α]

instance : Membership α (SortedSet α) :=
  ⟨fun s a => a ∈ s.toList⟩

instance (a : α) (s : SortedSet α) : Decidable (a ∈ s) :=
  inferInstanceAs (Decidable (a ∈ s.toList))

/-- The list of a set holds exactly its elements. -/
@[simp]
theorem mem_toList {a : α} {s : SortedSet α} : a ∈ s.toList ↔ a ∈ s :=
  Iff.rfl

instance decidableBAll (s : SortedSet α) (P : α → Prop) [DecidablePred P] :
    Decidable (∀ a ∈ s, P a) :=
  inferInstanceAs (Decidable (∀ a ∈ s.toList, P a))

instance decidableBEx (s : SortedSet α) (P : α → Prop) [DecidablePred P] :
    Decidable (∃ a ∈ s, P a) :=
  inferInstanceAs (Decidable (∃ a ∈ s.toList, P a))

/-- Two sorted sets with the same elements are the same set. -/
theorem ext {s t : SortedSet α} (h : ∀ a, a ∈ s ↔ a ∈ t) : s = t := by
  obtain ⟨l, hl⟩ := s
  obtain ⟨l', hl'⟩ := t
  have hlist : l = l' := List.Pairwise.eq_of_mem_iff hl hl' h
  subst hlist
  rfl

/-- A set is determined by its sorted list. -/
theorem toList_injective : Function.Injective (toList : SortedSet α → List α) := by
  intro s t h
  exact ext fun a => by rw [← mem_toList, h, mem_toList]

instance : DecidableEq (SortedSet α) := fun s t =>
  decidable_of_iff (s.toList = t.toList) toList_injective.eq_iff

/-- Sorting a list and dropping repeated elements leaves it strictly
increasing. -/
theorem pairwise_lt_dedup_insertionSort (l : List α) :
    ((l.insertionSort (· ≤ ·)).dedup).Pairwise (· < ·) := by
  have hle : (l.insertionSort (· ≤ ·)).Pairwise (· ≤ ·) := List.pairwise_insertionSort _ l
  have hsub := List.dedup_sublist (l.insertionSort (· ≤ ·))
  refine ((hle.sublist hsub).and (List.nodup_dedup _)).imp ?_
  rintro a b ⟨hab, hne⟩
  exact lt_of_le_of_ne hab hne

/-- The set of the elements of a list, as collecting an iterator into an
ordered set builds it. -/
def ofList (l : List α) : SortedSet α :=
  ⟨(l.insertionSort (· ≤ ·)).dedup, pairwise_lt_dedup_insertionSort l⟩

/-- The set of a list holds exactly the list's elements. -/
@[simp]
theorem mem_ofList {a : α} {l : List α} : a ∈ ofList l ↔ a ∈ l := by
  change a ∈ (l.insertionSort (· ≤ ·)).dedup ↔ a ∈ l
  rw [List.mem_dedup, List.mem_insertionSort]

/-- The set of a list is a set exactly when they have the same elements. -/
theorem ofList_eq_iff {l : List α} {s : SortedSet α} :
    ofList l = s ↔ ∀ a, a ∈ l ↔ a ∈ s := by
  constructor
  · rintro rfl a
    exact mem_ofList.symm
  · intro h
    exact ext fun a => by rw [mem_ofList, h]

/-- Rebuilding a set from its list gives the set back. -/
@[simp]
theorem ofList_toList (s : SortedSet α) : ofList s.toList = s :=
  ofList_eq_iff.2 fun _ => mem_toList

end SortedSet
