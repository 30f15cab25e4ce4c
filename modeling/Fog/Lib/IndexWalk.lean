import Mathlib.Data.List.TakeDrop

/-!
# Walking a list by an index

A loop that walks a list by an index it increments reads, at each turn, the
suffix {lit}`l.drop i = a :: rest`.  These are the facts such a loop needs of
that suffix: the item at the index, the suffix at the next index, the prefix
grown by the item, and that the index is within the list.
-/

namespace List

variable {α : Type _} {l rest : List α} {i : Nat} {a : α}

/-- The head of the suffix at an index is the item at that index. -/
theorem getElem?_of_drop_eq_cons (h : l.drop i = a :: rest) : l[i]? = some a := by
  rw [← List.head?_drop, h]
  rfl

/-- The same item, read with a default. -/
theorem getD_of_drop_eq_cons (h : l.drop i = a :: rest) (d : α) : l.getD i d = a := by
  rw [List.getD_eq_getElem?_getD, getElem?_of_drop_eq_cons h]
  rfl

/-- The suffix at the next index is the rest. -/
theorem drop_succ_of_drop_eq_cons (h : l.drop i = a :: rest) : l.drop (i + 1) = rest := by
  rw [← List.tail_drop, h]
  rfl

/-- The prefix up to the next index is the prefix grown by the item. -/
theorem take_succ_of_drop_eq_cons (h : l.drop i = a :: rest) :
    l.take (i + 1) = l.take i ++ [a] := by
  rw [List.take_add_one, getElem?_of_drop_eq_cons h]
  rfl

/-- An index with an item after it is within the list. -/
theorem lt_length_of_drop_eq_cons (h : l.drop i = a :: rest) : i < l.length := by
  by_contra hge
  rw [List.drop_eq_nil_iff.2 (Nat.le_of_not_lt hge)] at h
  cases h

end List
