import Mathlib.Logic.Function.Basic
import Mathlib.Data.List.Basic

/-!
# Batches of writes to a total store

A memory that maps every index to a value (a block store, a heap array, a
table of roots) is a function.  A batch of writes applied in order is a fold of
{lit}`Function.update`; a later write to the same index replaces an earlier
one.  This module gives the batch its name and the three facts the proofs
about such stores need: how batches compose, that an index no write names
keeps its value, and that two stores agreeing at an index still agree there
after the same batch.
-/

namespace Store

variable {ι β : Type _} [DecidableEq ι]

/-- Apply the writes in order. -/
def writeAll (f : ι → β) : List (ι × β) → ι → β
  | [] => f
  | (i, b) :: ws => writeAll (Function.update f i b) ws

/-- Writing nothing leaves the store. -/
@[simp]
theorem writeAll_nil (f : ι → β) : writeAll f [] = f :=
  rfl

/-- Writing a list writes its first entry, then the rest. -/
@[simp]
theorem writeAll_cons (f : ι → β) (i : ι) (b : β) (ws : List (ι × β)) :
    writeAll f ((i, b) :: ws) = writeAll (Function.update f i b) ws :=
  rfl

/-- Two batches in a row are one batch. -/
theorem writeAll_append (f : ι → β) (ws₁ ws₂ : List (ι × β)) :
    writeAll f (ws₁ ++ ws₂) = writeAll (writeAll f ws₁) ws₂ := by
  induction ws₁ generalizing f with
  | nil => rfl
  | cons w ws ih =>
      obtain ⟨i, b⟩ := w
      exact ih (Function.update f i b)

/-- An index that no write names keeps its value. -/
theorem writeAll_of_not_mem {f : ι → β} {ws : List (ι × β)} {i : ι}
    (h : i ∉ ws.map Prod.fst) : writeAll f ws i = f i := by
  induction ws generalizing f with
  | nil => rfl
  | cons w ws ih =>
      obtain ⟨j, b⟩ := w
      simp only [List.map_cons, List.mem_cons, not_or] at h
      rw [writeAll_cons, ih h.2, Function.update_of_ne h.1]

/-- Writing values at a list of indices leaves every index not in the list. -/
theorem writeAll_zip_of_not_mem {f : ι → β} {is : List ι} {bs : List β} {i : ι} (h : i ∉ is) :
    writeAll f (is.zip bs) i = f i := by
  apply writeAll_of_not_mem
  intro hi
  obtain ⟨⟨j, b⟩, hmem, rfl⟩ := List.mem_map.1 hi
  exact h (List.of_mem_zip hmem).1

/-- A batch of zipped writes is its first {lean}`k` writes, then the rest. -/
theorem writeAll_zip_take_drop (f : ι → β) {is : List ι} {bs : List β}
    (hlen : bs.length = is.length) (k : Nat) :
    writeAll f (is.zip bs) =
      writeAll (writeAll f ((is.take k).zip (bs.take k))) ((is.drop k).zip (bs.drop k)) := by
  have hzip : is.zip bs = (is.take k).zip (bs.take k) ++ (is.drop k).zip (bs.drop k) := by
    rw [← List.zip_append (by simp [hlen]), List.take_append_drop, List.take_append_drop]
  rw [hzip, writeAll_append]

/-- Stores that agree at an index agree there after the same batch. -/
theorem writeAll_apply_congr {f g : ι → β} {i : ι} (h : f i = g i) (ws : List (ι × β)) :
    writeAll f ws i = writeAll g ws i := by
  induction ws generalizing f g with
  | nil => exact h
  | cons w ws ih =>
      obtain ⟨j, b⟩ := w
      apply ih
      by_cases hij : i = j
      · subst hij
        simp
      · rw [Function.update_of_ne hij, Function.update_of_ne hij, h]

end Store
