import Mathlib

/-!
# Tables with a unique key column

A table whose rows carry a unique key, read back as the list of its rows in
the order of their serial ids.  {lit}`INSERT ... ON CONFLICT (key) DO UPDATE`
replaces the row that holds the key in place, keeping its serial id, or
appends the row; {lit}`DELETE ... WHERE key = k` drops the key's row.  A table
written by a sequence of upserts is the fold of the upserts over the rows
written, and deleting a key from it is that fold over the rows written with
the key's rows left out.

Main results:

- Theorems {lit}`KeyedTable.lookup_upsert_self` and
  {lit}`KeyedTable.lookup_upsert_of_ne`: a lookup after an upsert.
- Theorems {lit}`KeyedTable.lookup_delete_self` and
  {lit}`KeyedTable.lookup_delete_of_ne`: a lookup after a delete.
- Theorem {lit}`KeyedTable.keys_upsert`: a new key goes last and a present one
  keeps its place.
- Theorem {lit}`KeyedTable.ofLog_filter`: the table written by a log with one
  key's rows left out is the table written by the log with that key deleted.
-/

namespace KeyedTable

variable {α κ : Type _} [DecidableEq κ] (key : α → κ)

/-- {lit}`INSERT ... ON CONFLICT (key) DO UPDATE`: replace the first row with
the key of {lit}`x` by {lit}`x`, or append {lit}`x`. -/
def upsert (x : α) : List α → List α
  | [] => [x]
  | y :: ys => if key y = key x then x :: ys else y :: upsert x ys

/-- {lit}`DELETE ... WHERE key = k`. -/
def delete (k : κ) (rows : List α) : List α :=
  rows.filter fun y => key y ≠ k

/-- The first row with the key. -/
def lookup (k : κ) (rows : List α) : Option α :=
  rows.find? fun y => key y = k

/-- The table that the upserts of a log of rows write into an empty table. -/
def ofLog (log : List α) : List α :=
  log.foldl (fun rows x => upsert key x rows) []

/-! ## One row at a time -/

/-- Upserting into the empty table adds the row. -/
@[simp]
theorem upsert_nil (x : α) : upsert key x [] = [x] :=
  rfl

/-- An upsert replaces the first row with the same key. -/
theorem upsert_cons_of_eq {x y : α} (ys : List α) (hy : key y = key x) :
    upsert key x (y :: ys) = x :: ys := by
  rw [upsert, if_pos hy]

/-- An upsert passes a row with another key. -/
theorem upsert_cons_of_ne {x y : α} (ys : List α) (hy : key y ≠ key x) :
    upsert key x (y :: ys) = y :: upsert key x ys := by
  rw [upsert, if_neg hy]

/-- Deleting from the empty table leaves it empty. -/
@[simp]
theorem delete_nil (k : κ) : delete key k ([] : List α) = [] :=
  rfl

/-- A delete drops a row with the key. -/
theorem delete_cons_of_eq {k : κ} {y : α} (ys : List α) (hy : key y = k) :
    delete key k (y :: ys) = delete key k ys := by
  simp [delete, hy]

/-- A delete keeps a row with another key. -/
theorem delete_cons_of_ne {k : κ} {y : α} (ys : List α) (hy : key y ≠ k) :
    delete key k (y :: ys) = y :: delete key k ys := by
  simp [delete, hy]

/-- The empty table has no row. -/
@[simp]
theorem lookup_nil (k : κ) : lookup key k ([] : List α) = none :=
  rfl

/-- A lookup finds the first row with the key. -/
theorem lookup_cons_of_eq {k : κ} {y : α} (ys : List α) (hy : key y = k) :
    lookup key k (y :: ys) = some y := by
  simp [lookup, hy]

/-- A lookup passes a row with another key. -/
theorem lookup_cons_of_ne {k : κ} {y : α} (ys : List α) (hy : key y ≠ k) :
    lookup key k (y :: ys) = lookup key k ys := by
  simp [lookup, hy]

/-! ## Lookups -/

/-- After an upsert the key finds the new row. -/
theorem lookup_upsert_self (x : α) (rows : List α) :
    lookup key (key x) (upsert key x rows) = some x := by
  induction rows with
  | nil => exact lookup_cons_of_eq key [] rfl
  | cons y ys ih =>
      by_cases hy : key y = key x
      · rw [upsert_cons_of_eq key ys hy]
        exact lookup_cons_of_eq key ys rfl
      · rw [upsert_cons_of_ne key ys hy, lookup_cons_of_ne key _ hy, ih]

/-- After an upsert a key equal to the row's finds the new row. -/
theorem lookup_upsert_of_eq {k : κ} (x : α) (rows : List α) (hk : key x = k) :
    lookup key k (upsert key x rows) = some x := by
  subst hk
  exact lookup_upsert_self key x rows

/-- An upsert leaves the lookups of every other key. -/
theorem lookup_upsert_of_ne {k : κ} (x : α) (rows : List α) (hk : key x ≠ k) :
    lookup key k (upsert key x rows) = lookup key k rows := by
  induction rows with
  | nil => rw [upsert_nil, lookup_cons_of_ne key [] hk]
  | cons y ys ih =>
      by_cases hy : key y = key x
      · rw [upsert_cons_of_eq key ys hy, lookup_cons_of_ne key ys hk,
          lookup_cons_of_ne key ys (hy ▸ hk)]
      · rw [upsert_cons_of_ne key ys hy]
        by_cases hyk : key y = k
        · rw [lookup_cons_of_eq key _ hyk, lookup_cons_of_eq key _ hyk]
        · rw [lookup_cons_of_ne key _ hyk, lookup_cons_of_ne key _ hyk, ih]

/-- After a delete the key finds nothing. -/
theorem lookup_delete_self (k : κ) (rows : List α) : lookup key k (delete key k rows) = none := by
  induction rows with
  | nil => rfl
  | cons y ys ih =>
      by_cases hyk : key y = k
      · rw [delete_cons_of_eq key ys hyk, ih]
      · rw [delete_cons_of_ne key ys hyk, lookup_cons_of_ne key _ hyk, ih]

/-- A delete leaves the lookups of every other key. -/
theorem lookup_delete_of_ne {k k' : κ} (rows : List α) (hk : k' ≠ k) :
    lookup key k' (delete key k rows) = lookup key k' rows := by
  induction rows with
  | nil => rfl
  | cons y ys ih =>
      by_cases hyk : key y = k
      · have hyk' : key y ≠ k' := fun h => hk (h ▸ hyk)
        rw [delete_cons_of_eq key ys hyk, lookup_cons_of_ne key ys hyk', ih]
      · rw [delete_cons_of_ne key ys hyk]
        by_cases hyk' : key y = k'
        · rw [lookup_cons_of_eq key _ hyk', lookup_cons_of_eq key _ hyk']
        · rw [lookup_cons_of_ne key _ hyk', lookup_cons_of_ne key _ hyk', ih]

/-- The pairs of key and value a table is read back as are looked up as the
table. -/
theorem lookup_map_pair {β : Type _} (val : α → β) (k : κ) (rows : List α) :
    (rows.map fun x => (key x, val x)).lookup k = (lookup key k rows).map val := by
  induction rows with
  | nil => rfl
  | cons y ys ih =>
      by_cases hyk : key y = k
      · rw [lookup_cons_of_eq key _ hyk, List.map_cons, hyk]
        simp
      · have hbeq : (k == key y) = false := beq_false_of_ne (Ne.symm hyk)
        rw [lookup_cons_of_ne key _ hyk, List.map_cons, List.lookup_cons, hbeq, ← ih]

/-! ## The keys and their order -/

/-- An upsert keeps the keys, adding the row's key at the end if it is new. -/
theorem keys_upsert (x : α) (rows : List α) :
    (upsert key x rows).map key =
      if key x ∈ rows.map key then rows.map key else rows.map key ++ [key x] := by
  induction rows with
  | nil => simp
  | cons y ys ih =>
      by_cases hy : key y = key x
      · rw [upsert_cons_of_eq key ys hy]
        simp [hy]
      · rw [upsert_cons_of_ne key ys hy, List.map_cons, ih]
        have hne : key x ≠ key y := Ne.symm hy
        by_cases hmem : key x ∈ ys.map key <;> simp [hmem, hne]

/-! ## Deleting -/

/-- Deleting the key of an upsert undoes it. -/
theorem delete_upsert_self (x : α) (rows : List α) :
    delete key (key x) (upsert key x rows) = delete key (key x) rows := by
  induction rows with
  | nil => rw [upsert_nil, delete_cons_of_eq key [] rfl]
  | cons y ys ih =>
      by_cases hy : key y = key x
      · rw [upsert_cons_of_eq key ys hy, delete_cons_of_eq key ys rfl, delete_cons_of_eq key ys hy]
      · rw [upsert_cons_of_ne key ys hy, delete_cons_of_ne key _ hy, delete_cons_of_ne key _ hy, ih]

/-- An upsert and a delete of another key commute. -/
theorem delete_upsert_of_ne {k : κ} (x : α) (rows : List α) (hk : key x ≠ k) :
    delete key k (upsert key x rows) = upsert key x (delete key k rows) := by
  induction rows with
  | nil => rw [upsert_nil, delete_cons_of_ne key [] hk, delete_nil, upsert_nil]
  | cons y ys ih =>
      by_cases hyk : key y = k
      · have hyx : key y ≠ key x := fun h => hk (h ▸ hyk)
        rw [upsert_cons_of_ne key ys hyx, delete_cons_of_eq key _ hyk, delete_cons_of_eq key _ hyk,
          ih]
      · rw [delete_cons_of_ne key ys hyk]
        by_cases hyx : key y = key x
        · rw [upsert_cons_of_eq key ys hyx, upsert_cons_of_eq key _ hyx,
            delete_cons_of_ne key ys hk]
        · rw [upsert_cons_of_ne key ys hyx, upsert_cons_of_ne key _ hyx,
            delete_cons_of_ne key _ hyk, ih]

/-- Replaying one more entry upserts it into the table. -/
theorem ofLog_append_singleton (log : List α) (x : α) :
    ofLog key (log ++ [x]) = upsert key x (ofLog key log) := by
  simp [ofLog, List.foldl_append]

/-- Leaving a key's rows out of the log is deleting the key from the table. -/
theorem ofLog_filter (k : κ) (log : List α) :
    ofLog key (log.filter fun x => key x ≠ k) = delete key k (ofLog key log) := by
  suffices ∀ rows : List α,
      (log.filter fun x => key x ≠ k).foldl (fun rows x => upsert key x rows) (delete key k rows) =
        delete key k (log.foldl (fun rows x => upsert key x rows) rows) from
    this []
  induction log with
  | nil => exact fun _ => rfl
  | cons x xs ih =>
      intro rows
      by_cases hx : key x = k
      · rw [List.filter_cons_of_neg (by simpa using hx), List.foldl_cons, ← ih, ← hx,
          delete_upsert_self]
      · rw [List.filter_cons_of_pos (by simpa using hx), List.foldl_cons, List.foldl_cons, ← ih,
          delete_upsert_of_ne key x rows hx]

end KeyedTable
