import Fog.Lib.Except
import Fog.Lib.IndexWalk
import Mathlib

/-!
# The sample paykit's input selection

{lit}`input_selection_heuristic` of `fog/sample-paykit/src/cached_tx_data/mod.rs`
chooses which txos to spend for an amount: the earliest ones it can while the
amount stays reachable within the input limit.  A table computed from the last
value backwards holds, for every suffix of the values and every count, the
largest sum of at most that many of them; a forward greedy loop takes a value
exactly when the table says the amount is still reachable with it.

Values, amounts and sums are {lit}`u64`; every addition is checked, and
{lean}`none` is an overflow, a failed assertion, or the out-of-range read of the
recommendation's column.  The limit {lit}`MAX_INPUTS` comes from a crate outside
this repository, so it is a parameter.

Main results:

- Theorem {lit}`bestSum_cons_succ`: the recurrence of the table holds of the
  largest sum of at most a number of values, defined over all choices.
- Theorem {lit}`dpTable_eq_some`: with a total below {lit}`2^64` the table is
  computed without overflow, and each row lists the largest sums of its suffix.
- Theorem {lit}`inputSelectionHeuristic_correct`: the three outcomes of the
  heuristic and what each guarantees.
-/

namespace Fog
namespace Paykit

open scoped List

/-! ## The specification: largest sums of a bounded number of values -/

/-- The largest sum of at most {lean}`j` of the values, over every choice of
positions. -/
def bestSum (values : List Nat) (j : Nat) : Nat :=
  ((values.sublists.filter fun s => s.length ≤ j).map List.sum).foldr max 0

/-- Every member of a list is at most its maximum. -/
theorem le_foldr_max {l : List Nat} {a : Nat} (h : a ∈ l) : a ≤ l.foldr max 0 := by
  induction l with
  | nil => cases h
  | cons b l ih =>
      rw [List.foldr_cons]
      rcases List.mem_cons.1 h with rfl | hmem
      · exact le_max_left _ _
      · exact le_trans (ih hmem) (le_max_right _ _)

/-- The maximum of a list that is not empty is one of its members. -/
theorem foldr_max_mem : ∀ {l : List Nat}, l ≠ [] → l.foldr max 0 ∈ l
  | [], h => absurd rfl h
  | [a], _ => by simp
  | a :: b :: l, _ => by
      rw [List.foldr_cons]
      rcases max_choice a ((b :: l).foldr max 0) with hmax | hmax
      · rw [hmax]
        exact List.mem_cons_self
      · rw [hmax]
        exact List.mem_cons_of_mem a (foldr_max_mem (List.cons_ne_nil b l))

/-- Every choice of at most {lean}`j` values sums to at most the largest sum. -/
theorem le_bestSum {values s : List Nat} {j : Nat} (hs : s <+ values) (hlen : s.length ≤ j) :
    s.sum ≤ bestSum values j := by
  apply le_foldr_max
  rw [List.mem_map]
  exact ⟨s, List.mem_filter.2 ⟨List.mem_sublists.2 hs, decide_eq_true hlen⟩, rfl⟩

/-- The largest sum is the sum of a choice of at most {lean}`j` values. -/
theorem exists_bestSum (values : List Nat) (j : Nat) :
    ∃ s, s <+ values ∧ s.length ≤ j ∧ s.sum = bestSum values j := by
  have hne : ((values.sublists.filter fun s => s.length ≤ j).map List.sum) ≠ [] := by
    apply List.ne_nil_of_mem (a := 0)
    rw [List.mem_map]
    exact ⟨[], List.mem_filter.2 ⟨List.mem_sublists.2 (List.nil_sublist _),
      decide_eq_true (Nat.zero_le _)⟩, rfl⟩
  obtain ⟨s, hs, hsum⟩ := List.mem_map.1 (foldr_max_mem hne)
  obtain ⟨hsub, hlen⟩ := List.mem_filter.1 hs
  exact ⟨s, List.mem_sublists.1 hsub, of_decide_eq_true hlen, hsum⟩

/-- No choice sums to more than all the values. -/
theorem bestSum_le_sum (values : List Nat) (j : Nat) : bestSum values j ≤ values.sum := by
  obtain ⟨s, hs, -, hsum⟩ := exists_bestSum values j
  rw [← hsum]
  exact hs.sum_le_sum fun _ _ => Nat.zero_le _

/-- A choice of no values sums to zero. -/
@[simp]
theorem bestSum_zero (values : List Nat) : bestSum values 0 = 0 := by
  obtain ⟨s, -, hlen, hsum⟩ := exists_bestSum values 0
  rw [List.length_eq_zero_iff.1 (Nat.le_zero.1 hlen)] at hsum
  exact hsum.symm

/-- No values sum to zero. -/
@[simp]
theorem bestSum_nil (j : Nat) : bestSum [] j = 0 :=
  Nat.le_zero.1 (bestSum_le_sum [] j)

/-- The recurrence of the table: the best choice of at most {lean}`j + 1` values
either takes the first value with at most {lean}`j` of the rest, or does not
take it. -/
theorem bestSum_cons_succ (v : Nat) (values : List Nat) (j : Nat) :
    bestSum (v :: values) (j + 1) = max (v + bestSum values j) (bestSum values (j + 1)) := by
  apply le_antisymm
  · obtain ⟨s, hs, hlen, hsum⟩ := exists_bestSum (v :: values) (j + 1)
    rw [← hsum]
    rcases List.sublist_cons_iff.1 hs with hrest | ⟨r, rfl, hr⟩
    · exact le_trans (le_bestSum hrest hlen) (le_max_right _ _)
    · rw [List.length_cons] at hlen
      rw [List.sum_cons]
      exact le_trans (Nat.add_le_add_left (le_bestSum hr (by omega)) v) (le_max_left _ _)
  · apply max_le
    · obtain ⟨s, hs, hlen, hsum⟩ := exists_bestSum values j
      have := le_bestSum (j := j + 1) (hs.cons_cons v) (Nat.succ_le_succ hlen)
      rw [List.sum_cons, hsum] at this
      exact this
    · obtain ⟨s, hs, hlen, hsum⟩ := exists_bestSum values (j + 1)
      rw [← hsum]
      exact le_bestSum (hs.cons v) hlen

/-! ## The model -/

/-- {lit}`InputSelectionError`. -/
inductive InputSelectionError
  | insufficientFunds
  | walletCompactingNeeded (value : Nat)
deriving DecidableEq, Repr

/-- Addition of two {lit}`u64`; {lean}`none` is the overflow panic. -/
def u64Add (a b : Nat) : Option Nat :=
  if a + b < 2 ^ 64 then some (a + b) else none

/-- {lit}`tx_values.iter().sum::<u64>()`. -/
def u64Sum (values : List Nat) : Option Nat :=
  values.foldlM u64Add 0

/-- One row of {lit}`dp_table` from the row below it: entry {lean}`j + 1` is the
better of this value with entry {lean}`j` below, and entry {lean}`j + 1` below;
entry 0 stays 0. -/
def dpRow (maxInputsLimit value : Nat) (below : List Nat) : Option (List Nat) :=
  ((List.range maxInputsLimit).mapM fun j =>
      (u64Add value (below.getD j 0)).map fun withValue => max withValue (below.getD (j + 1) 0)).map
    (0 :: ·)

/-- {lit}`dp_table`: a row for every suffix of the values, filled from the last
one, which is all zeros. -/
def dpTable (maxInputsLimit : Nat) : List Nat → Option (List (List Nat))
  | [] => some [List.replicate (maxInputsLimit + 1) 0]
  | value :: values =>
      (dpTable maxInputsLimit values).bind fun rows =>
        (dpRow maxInputsLimit value (rows.headD [])).map fun row => row :: rows

/-- {lit}`dp_table[i][j]`. -/
def dpEntry (table : List (List Nat)) (i j : Nat) : Nat :=
  (table.getD i []).getD j 0

/-- The greedy loop from index {lean}`idx` on, over the values not yet visited,
with the indices chosen so far and their running value.  The running value
plus the value is computed once for the test and the update, which add the
same two numbers. -/
def selectLoop (table : List (List Nat)) (maxInputs amount : Nat) :
    Nat → List Nat → List Nat → Nat → Option (List Nat)
  | _, [], result, value =>
      if result.length ≤ maxInputs then
        if value ≥ amount then some result else none
      else none
  | idx, txValue :: rest, result, value =>
      if value ≥ amount then
        if result.length ≤ maxInputs then some result else none
      else if result.length < maxInputs then
        (u64Add value txValue).bind fun withValue =>
          (u64Add withValue (dpEntry table (idx + 1) (maxInputs - result.length - 1))).bind
            fun reachable =>
              if reachable ≥ amount then
                selectLoop table maxInputs amount (idx + 1) rest (result ++ [idx]) withValue
              else selectLoop table maxInputs amount (idx + 1) rest result value
      else none

/-- {lit}`input_selection_heuristic`. -/
def inputSelectionHeuristic (maxInputsLimit : Nat) (txValues : List Nat) (amount maxInputs : Nat) :
    Option (Except InputSelectionError (List Nat)) :=
  let maxInputs := min maxInputs maxInputsLimit
  (u64Sum txValues).bind fun total =>
    if total < amount then some (.error .insufficientFunds)
    else
      (dpTable maxInputsLimit txValues).bind fun table =>
        if dpEntry table 0 maxInputs < amount then
          -- the recommendation reads column max(max_inputs, 3) of a row of MAX_INPUTS + 1
          if max maxInputs 3 ≤ maxInputsLimit then
            some (.error (.walletCompactingNeeded (dpEntry table 0 (max maxInputs 3))))
          else none
        else (selectLoop table maxInputs amount 0 txValues [] 0).map .ok

/-! ## The table holds the largest sums -/

/-- A sum below {lit}`2^64` is added without overflow. -/
theorem u64Add_eq {a b : Nat} (h : a + b < 2 ^ 64) : u64Add a b = some (a + b) :=
  if_pos h

/-- A total below {lit}`2^64` is summed without overflow. -/
theorem u64Sum_eq {values : List Nat} (h : values.sum < 2 ^ 64) : u64Sum values = some values.sum := by
  suffices hacc : ∀ (l : List Nat) (acc : Nat), acc + l.sum < 2 ^ 64 →
      l.foldlM u64Add acc = some (acc + l.sum) by
    unfold u64Sum
    have hzero := hacc values 0 (by simpa using h)
    simpa using hzero
  intro l
  induction l with
  | nil =>
      intro acc _
      simp
  | cons a l ih =>
      intro acc hacc
      rw [List.sum_cons] at hacc
      rw [List.foldlM_cons, u64Add_eq (by omega)]
      simp only [Option.bind_eq_bind, Option.bind_some]
      rw [ih (acc + a) (by omega), List.sum_cons, Nat.add_assoc]

/-- The row of the largest sums of at most 0, 1, …, {lit}`MAX_INPUTS` of the
values. -/
def bestRow (maxInputsLimit : Nat) (values : List Nat) : List Nat :=
  (List.range (maxInputsLimit + 1)).map (bestSum values)

/-- Entry {lean}`j` of the best row is the largest sum of at most {lean}`j`
values. -/
theorem getD_bestRow {maxInputsLimit j : Nat} (values : List Nat) (hj : j ≤ maxInputsLimit) :
    (bestRow maxInputsLimit values).getD j 0 = bestSum values j := by
  unfold bestRow
  rw [List.getD_eq_getElem?_getD, List.getElem?_map, List.getElem?_range (by omega)]
  rfl

/-- One row computed from the best row of the rest is the best row, without
overflow. -/
theorem dpRow_bestRow {maxInputsLimit v : Nat} {values : List Nat} (h : v + values.sum < 2 ^ 64) :
    dpRow maxInputsLimit v (bestRow maxInputsLimit values) =
      some (bestRow maxInputsLimit (v :: values)) := by
  unfold dpRow
  rw [List.mapM_eq_some_map (g := fun j => max (v + bestSum values j) (bestSum values (j + 1)))]
  · simp only [Option.map_some, Option.some.injEq]
    unfold bestRow
    rw [List.range_succ_eq_map, List.map_cons, List.map_map, bestSum_zero]
    congr 1
    apply List.map_congr_left
    intro j _
    exact (bestSum_cons_succ v values j).symm
  · intro j hj
    have hlt : j < maxInputsLimit := List.mem_range.1 hj
    rw [getD_bestRow values (by omega), getD_bestRow values (by omega), u64Add_eq]
    · rfl
    · calc v + bestSum values j ≤ v + values.sum := Nat.add_le_add_left (bestSum_le_sum _ _) v
        _ < 2 ^ 64 := h

/-- With a total below {lit}`2^64` the table is computed without overflow, and
its row {lean}`i` is the best row of the values from {lean}`i` on. -/
theorem dpTable_eq_some (maxInputsLimit : Nat) :
    ∀ {values : List Nat}, values.sum < 2 ^ 64 →
      ∃ rows, dpTable maxInputsLimit values = some rows ∧
        ∀ i ≤ values.length, rows.getD i [] = bestRow maxInputsLimit (values.drop i)
  | [], _ => by
      refine ⟨_, rfl, fun i hi => ?_⟩
      rw [Nat.le_zero.1 hi]
      have hzero : bestSum [] = fun _ => 0 := funext bestSum_nil
      simp only [List.getD_cons_zero, List.drop_zero, bestRow, hzero, List.map_const',
        List.length_range]
  | v :: values, h => by
      rw [List.sum_cons] at h
      obtain ⟨rows, hrows, hget⟩ := dpTable_eq_some maxInputsLimit (show values.sum < 2 ^ 64 by omega)
      have hhead : rows.headD [] = bestRow maxInputsLimit values := by
        have h0 := hget 0 (Nat.zero_le _)
        rw [List.drop_zero] at h0
        rw [← h0]
        cases rows <;> rfl
      refine ⟨bestRow maxInputsLimit (v :: values) :: rows, ?_, fun i hi => ?_⟩
      · rw [dpTable, hrows]
        simp only [Option.bind_some, hhead, dpRow_bestRow h, Option.map_some]
      · cases i with
        | zero => rfl
        | succ i =>
            rw [List.getD_cons_succ, hget i (by simpa using hi)]
            rfl

/-- An entry of the table is the largest sum of at most its column's number of
the values from its row on. -/
theorem dpEntry_eq {maxInputsLimit : Nat} {values : List Nat} {rows : List (List Nat)}
    (hget : ∀ i ≤ values.length, rows.getD i [] = bestRow maxInputsLimit (values.drop i))
    {i j : Nat} (hi : i ≤ values.length) (hj : j ≤ maxInputsLimit) :
    dpEntry rows i j = bestSum (values.drop i) j := by
  unfold dpEntry
  rw [hget i hi, getD_bestRow _ hj]

/-! ## What the heuristic guarantees -/

/-- Some choice of at most {lean}`k` of the values sums to at least the amount. -/
def Reachable (values : List Nat) (k amount : Nat) : Prop :=
  ∃ s, s <+ values ∧ s.length ≤ k ∧ amount ≤ s.sum

/-- The value is the largest sum of at most {lean}`k` of the values. -/
def IsLargestSum (values : List Nat) (k v : Nat) : Prop :=
  (∀ s, s <+ values → s.length ≤ k → s.sum ≤ v) ∧ ∃ s, s <+ values ∧ s.length ≤ k ∧ s.sum = v

/-- {lean}`bestSum` is the largest sum. -/
theorem isLargestSum_bestSum (values : List Nat) (k : Nat) :
    IsLargestSum values k (bestSum values k) :=
  ⟨fun _ hs hlen => le_bestSum hs hlen, exists_bestSum values k⟩

/-- An amount is reachable exactly when the largest sum reaches it. -/
theorem reachable_iff {values : List Nat} {k amount : Nat} :
    Reachable values k amount ↔ amount ≤ bestSum values k := by
  constructor
  · rintro ⟨s, hs, hlen, hsum⟩
    exact le_trans hsum (le_bestSum hs hlen)
  · intro h
    obtain ⟨s, hs, hlen, hsum⟩ := exists_bestSum values k
    exact ⟨s, hs, hlen, hsum ▸ h⟩

/-- The sum of the values at the given indices. -/
def indexSum (values idxs : List Nat) : Nat :=
  (idxs.map fun i => values.getD i 0).sum

/-- An index the greedy choice passed over could not have been taken: with the
indices chosen before it, itself, and values after it filling at most the
remaining input slots, the amount is out of reach. -/
def SkipForced (values : List Nat) (m amount : Nat) (idxs : List Nat) (i : Nat) : Prop :=
  ∀ s, s <+ values.drop (i + 1) → (idxs.filter (· < i)).length + 1 + s.length ≤ m →
    indexSum values (idxs.filter (· < i)) + values.getD i 0 + s.sum < amount

/-- What the indices the heuristic returns satisfy: increasing positions of
the values, at most {lean}`m` of them, summing to at least the amount, with
every index passed over before the last one forced. -/
structure ValidSelection (values : List Nat) (m amount : Nat) (idxs : List Nat) : Prop where
  increasing : idxs.Pairwise (· < ·)
  lt_length : ∀ i ∈ idxs, i < values.length
  length_le : idxs.length ≤ m
  covers : amount ≤ indexSum values idxs
  skipped : ∀ i, (∃ l ∈ idxs, i < l) → i ∉ idxs → SkipForced values m amount idxs i

/-! ## The greedy loop -/

/-- The state of the greedy loop at index {lean}`idx`: the chosen indices are
increasing and below it, their running value is at most the sum of the values
before it, the amount is still reachable within the remaining slots, and every
index passed over was forced. -/
structure LoopInv (values : List Nat) (m amount idx : Nat) (result : List Nat) (value : Nat) :
    Prop where
  idx_le : idx ≤ values.length
  increasing : result.Pairwise (· < ·)
  lt_idx : ∀ i ∈ result, i < idx
  value_eq : value = indexSum values result
  value_le : value ≤ (values.take idx).sum
  length_le : result.length ≤ m
  reachable : amount ≤ value + bestSum (values.drop idx) (m - result.length)
  skipped : ∀ i < idx, i ∉ result → SkipForced values m amount result i

/-- The invariant holds at the start of the loop, when the amount is reachable.
-/
theorem loopInv_start {values : List Nat} {m amount : Nat} (h : amount ≤ bestSum values m) :
    LoopInv values m amount 0 [] 0 := by
  refine ⟨Nat.zero_le _, List.Pairwise.nil, fun i hi => (by cases hi), rfl, Nat.zero_le _,
    Nat.zero_le _, ?_, fun i hi => absurd hi (Nat.not_lt_zero i)⟩
  simpa using h

/-- Once the amount is reached, the chosen indices are a valid selection. -/
theorem LoopInv.validSelection {values : List Nat} {m amount idx : Nat} {result : List Nat}
    {value : Nat} (h : LoopInv values m amount idx result value) (hv : amount ≤ value) :
    ValidSelection values m amount result where
  increasing := h.increasing
  lt_length i hi := lt_of_lt_of_le (h.lt_idx i hi) h.idx_le
  length_le := h.length_le
  covers := h.value_eq ▸ hv
  skipped i := fun ⟨l, hl, hil⟩ hni => h.skipped i (lt_trans hil (h.lt_idx l hl)) hni

/-- Taking one more value adds the value at the index. -/
theorem sum_take_succ_of_drop_eq_cons {values rest : List Nat} {idx v : Nat}
    (h : values.drop idx = v :: rest) : (values.take (idx + 1)).sum = (values.take idx).sum + v := by
  rw [List.take_succ_of_drop_eq_cons h, List.sum_append, List.sum_singleton]

/-- Step lemma: taking the value at the index keeps the invariant when the
amount stays reachable with it. -/
theorem LoopInv.take {values rest : List Nat} {m amount idx v : Nat} {result : List Nat}
    {value : Nat} (h : LoopInv values m amount idx result value)
    (hdrop : values.drop idx = v :: rest) (hlt : result.length < m)
    (htest : amount ≤ value + v + bestSum rest (m - result.length - 1)) :
    LoopInv values m amount (idx + 1) (result ++ [idx]) (value + v) := by
  have hv := List.getD_of_drop_eq_cons hdrop 0
  refine ⟨List.lt_length_of_drop_eq_cons hdrop, ?_, fun i hi => ?_, ?_, ?_, ?_, ?_, fun i hi hni => ?_⟩
  · rw [List.pairwise_append]
    refine ⟨h.increasing, List.pairwise_singleton _ _, fun a ha b hb => ?_⟩
    rw [List.mem_singleton.1 hb]
    exact h.lt_idx a ha
  · rcases List.mem_append.1 hi with hi | hi
    · exact Nat.lt_succ_of_lt (h.lt_idx i hi)
    · rw [List.mem_singleton.1 hi]
      exact Nat.lt_succ_self idx
  · rw [h.value_eq]
    simp only [indexSum, List.map_append, List.map_cons, List.map_nil, List.sum_append,
      List.sum_cons, List.sum_nil, hv, Nat.add_zero]
  · rw [sum_take_succ_of_drop_eq_cons hdrop]
    exact Nat.add_le_add_right h.value_le v
  · rw [List.length_append, List.length_singleton]
    exact hlt
  · rw [List.drop_succ_of_drop_eq_cons hdrop, List.length_append, List.length_singleton]
    have hk : m - (result.length + 1) = m - result.length - 1 := by omega
    rw [hk]
    exact htest
  · have hlt' : i < idx := by
      rcases Nat.lt_succ_iff_lt_or_eq.1 hi with hlt' | rfl
      · exact hlt'
      · exact absurd (List.mem_append_right _ (List.mem_singleton_self _)) hni
    have hfilter : (result ++ [idx]).filter (· < i) = result.filter (· < i) := by
      simp [List.filter_append, Nat.not_lt.2 (Nat.le_of_lt hlt')]
    rw [SkipForced, hfilter]
    exact h.skipped i hlt' fun hmem => hni (List.mem_append_left _ hmem)

/-- Step lemma: passing over the value at the index keeps the invariant when
the amount is out of reach with it. -/
theorem LoopInv.skip {values rest : List Nat} {m amount idx v : Nat} {result : List Nat}
    {value : Nat} (h : LoopInv values m amount idx result value)
    (hdrop : values.drop idx = v :: rest) (hlt : result.length < m)
    (htest : value + v + bestSum rest (m - result.length - 1) < amount) :
    LoopInv values m amount (idx + 1) result value := by
  have hv := List.getD_of_drop_eq_cons hdrop 0
  refine ⟨List.lt_length_of_drop_eq_cons hdrop, h.increasing, fun i hi => Nat.lt_succ_of_lt (h.lt_idx i hi), h.value_eq, ?_,
    h.length_le, ?_, fun i hi hni => ?_⟩
  · rw [sum_take_succ_of_drop_eq_cons hdrop]
    exact le_trans h.value_le (Nat.le_add_right _ _)
  · have hreach := h.reachable
    rw [hdrop, show m - result.length = (m - result.length - 1) + 1 by omega,
      bestSum_cons_succ] at hreach
    rw [List.drop_succ_of_drop_eq_cons hdrop, show m - result.length = (m - result.length - 1) + 1 by omega]
    omega
  · rcases Nat.lt_succ_iff_lt_or_eq.1 hi with hlt' | rfl
    · exact h.skipped i hlt' hni
    · have hfilter : result.filter (· < i) = result := by
        rw [List.filter_eq_self]
        intro a ha
        exact decide_eq_true (h.lt_idx a ha)
      intro s hs hslen
      rw [hfilter] at hslen ⊢
      rw [hv, ← h.value_eq]
      have hbest : s.sum ≤ bestSum rest (m - result.length - 1) :=
        le_bestSum (List.drop_succ_of_drop_eq_cons hdrop ▸ hs) (by omega)
      omega

/-- The running value, the value at the index and any largest sum of the
values after it add up to at most the total. -/
theorem LoopInv.add_bestSum_le {values rest : List Nat} {m amount idx v : Nat} {result : List Nat}
    {value : Nat} (h : LoopInv values m amount idx result value)
    (hdrop : values.drop idx = v :: rest) (k : Nat) :
    value + v + bestSum rest k ≤ values.sum := by
  have hsplit := List.sum_take_add_sum_drop values (idx + 1)
  rw [List.drop_succ_of_drop_eq_cons hdrop, sum_take_succ_of_drop_eq_cons hdrop] at hsplit
  have hbest := bestSum_le_sum rest k
  have hvalue := h.value_le
  omega

/-- Run lemma of the greedy loop: from a state satisfying the invariant, with
the table holding the largest sums, the loop passes every assertion, overflows
no addition, and returns a valid selection.  The induction is on the values not
yet visited. -/
theorem selectLoop_spec {maxInputsLimit : Nat} {values : List Nat} {rows : List (List Nat)}
    (hget : ∀ i ≤ values.length, rows.getD i [] = bestRow maxInputsLimit (values.drop i))
    (htotal : values.sum < 2 ^ 64) {m amount : Nat} (hm : m ≤ maxInputsLimit) :
    ∀ (rest : List Nat) {idx : Nat} {result : List Nat} {value : Nat},
      values.drop idx = rest → LoopInv values m amount idx result value →
      ∃ idxs, selectLoop rows m amount idx rest result value = some idxs ∧
        ValidSelection values m amount idxs
  | [], idx, result, value, hdrop, h => by
      have hv : amount ≤ value := by
        have hreach := h.reachable
        rw [hdrop, bestSum_nil, Nat.add_zero] at hreach
        exact hreach
      refine ⟨result, ?_, h.validSelection hv⟩
      rw [selectLoop, if_pos h.length_le, if_pos hv]
  | v :: rest, idx, result, value, hdrop, h => by
      rw [selectLoop]
      by_cases hv : amount ≤ value
      · rw [if_pos hv, if_pos h.length_le]
        exact ⟨result, rfl, h.validSelection hv⟩
      · have hlt : result.length < m := by
          by_contra hge
          have hreach := h.reachable
          rw [Nat.sub_eq_zero_of_le (Nat.le_of_not_lt hge), bestSum_zero] at hreach
          omega
        have hentry : dpEntry rows (idx + 1) (m - result.length - 1) =
            bestSum rest (m - result.length - 1) := by
          rw [dpEntry_eq hget (List.lt_length_of_drop_eq_cons hdrop) (by omega),
            List.drop_succ_of_drop_eq_cons hdrop]
        have hbound := h.add_bestSum_le hdrop (m - result.length - 1)
        have hnext := List.drop_succ_of_drop_eq_cons hdrop
        rw [if_neg hv, if_pos hlt, u64Add_eq (by omega), Option.bind_some, hentry,
          u64Add_eq (by omega), Option.bind_some]
        by_cases htest : amount ≤ value + v + bestSum rest (m - result.length - 1)
        · rw [if_pos htest]
          exact selectLoop_spec hget htotal hm rest hnext (h.take hdrop hlt htest)
        · rw [if_neg htest]
          exact selectLoop_spec hget htotal hm rest hnext (h.skip hdrop hlt (Nat.lt_of_not_le htest))

/-! ## The three outcomes -/

section Outcomes

variable {maxInputsLimit : Nat} {txValues : List Nat} {amount : Nat}

/-- Below the amount the heuristic reports insufficient funds. -/
theorem inputSelectionHeuristic_of_lt (maxInputs : Nat) (htotal : txValues.sum < 2 ^ 64)
    (hlt : txValues.sum < amount) :
    inputSelectionHeuristic maxInputsLimit txValues amount maxInputs =
      some (.error .insufficientFunds) := by
  unfold inputSelectionHeuristic
  rw [u64Sum_eq htotal, Option.bind_some, if_pos hlt]

/-- With enough funds the heuristic reads the table's first row at the limit on
inputs: the largest sum of at most that many values. -/
theorem inputSelectionHeuristic_of_le (maxInputs : Nat) (htotal : txValues.sum < 2 ^ 64)
    (hle : amount ≤ txValues.sum) :
    ∃ rows, (∀ i ≤ txValues.length, rows.getD i [] = bestRow maxInputsLimit (txValues.drop i)) ∧
      inputSelectionHeuristic maxInputsLimit txValues amount maxInputs =
        if bestSum txValues (min maxInputs maxInputsLimit) < amount then
          if max (min maxInputs maxInputsLimit) 3 ≤ maxInputsLimit then
            some (.error (.walletCompactingNeeded
              (dpEntry rows 0 (max (min maxInputs maxInputsLimit) 3))))
          else none
        else (selectLoop rows (min maxInputs maxInputsLimit) amount 0 txValues [] 0).map .ok := by
  obtain ⟨rows, hrows, hget⟩ := dpTable_eq_some maxInputsLimit htotal
  have hentry : dpEntry rows 0 (min maxInputs maxInputsLimit) =
      bestSum txValues (min maxInputs maxInputsLimit) := by
    rw [dpEntry_eq hget (Nat.zero_le _) (min_le_right _ _), List.drop_zero]
  refine ⟨rows, hget, ?_⟩
  unfold inputSelectionHeuristic
  rw [u64Sum_eq htotal, Option.bind_some, if_neg (Nat.not_lt_of_le hle), hrows, Option.bind_some,
    hentry]

/-- With enough funds but no choice of at most {lean}`m` values reaching the
amount, the heuristic recommends compacting with the largest sum of at most
{lean}`max m 3` values. -/
theorem inputSelectionHeuristic_of_not_reachable (hlimit : 3 ≤ maxInputsLimit) (maxInputs : Nat)
    (htotal : txValues.sum < 2 ^ 64) (hle : amount ≤ txValues.sum)
    (hnot : ¬Reachable txValues (min maxInputs maxInputsLimit) amount) :
    inputSelectionHeuristic maxInputsLimit txValues amount maxInputs =
      some (.error (.walletCompactingNeeded
        (bestSum txValues (max (min maxInputs maxInputsLimit) 3)))) := by
  obtain ⟨rows, hget, heq⟩ := inputSelectionHeuristic_of_le maxInputs htotal hle
  have hcol : max (min maxInputs maxInputsLimit) 3 ≤ maxInputsLimit :=
    max_le (min_le_right _ _) hlimit
  have hlt : bestSum txValues (min maxInputs maxInputsLimit) < amount :=
    Nat.lt_of_not_le fun h => hnot (reachable_iff.2 h)
  rw [heq, if_pos hlt, if_pos hcol, dpEntry_eq hget (Nat.zero_le _) hcol, List.drop_zero]

/-- With enough funds and some choice of at most {lean}`m` values reaching the
amount, the greedy loop returns a valid selection. -/
theorem inputSelectionHeuristic_of_reachable (maxInputs : Nat) (htotal : txValues.sum < 2 ^ 64)
    (hle : amount ≤ txValues.sum) (hreach : Reachable txValues (min maxInputs maxInputsLimit) amount) :
    ∃ idxs, inputSelectionHeuristic maxInputsLimit txValues amount maxInputs = some (.ok idxs) ∧
      ValidSelection txValues (min maxInputs maxInputsLimit) amount idxs := by
  obtain ⟨rows, hget, heq⟩ := inputSelectionHeuristic_of_le maxInputs htotal hle
  have hbest := reachable_iff.1 hreach
  obtain ⟨idxs, hloop, hvalid⟩ :=
    selectLoop_spec hget htotal (min_le_right maxInputs maxInputsLimit) txValues
      (List.drop_zero) (loopInv_start hbest)
  refine ⟨idxs, ?_, hvalid⟩
  rw [heq, if_neg (Nat.not_lt_of_le hbest), hloop, Option.map_some]

end Outcomes

/-- The heuristic's three outcomes, for every list of values whose total fits in
{lit}`u64`, every amount and every requested number of inputs, with the limit
{lit}`MAX_INPUTS` at least 3 (it is 16): insufficient funds below the amount;
otherwise a recommendation to compact, with the largest sum of at most
{lean}`max m 3` values, when no {lean}`m` values reach it; otherwise a valid
selection.  The three conditions cover every input, so the heuristic always
returns: no assertion fails and no addition overflows. -/
theorem inputSelectionHeuristic_correct {maxInputsLimit : Nat} (hlimit : 3 ≤ maxInputsLimit)
    (txValues : List Nat) (htotal : txValues.sum < 2 ^ 64) (amount maxInputs : Nat) :
    (txValues.sum < amount →
      inputSelectionHeuristic maxInputsLimit txValues amount maxInputs =
        some (.error .insufficientFunds)) ∧
    (amount ≤ txValues.sum → ¬Reachable txValues (min maxInputs maxInputsLimit) amount →
      ∃ v, IsLargestSum txValues (max (min maxInputs maxInputsLimit) 3) v ∧
        inputSelectionHeuristic maxInputsLimit txValues amount maxInputs =
          some (.error (.walletCompactingNeeded v))) ∧
    (amount ≤ txValues.sum → Reachable txValues (min maxInputs maxInputsLimit) amount →
      ∃ idxs, inputSelectionHeuristic maxInputsLimit txValues amount maxInputs = some (.ok idxs) ∧
        ValidSelection txValues (min maxInputs maxInputsLimit) amount idxs) := by
  refine ⟨inputSelectionHeuristic_of_lt maxInputs htotal, fun hle hnot => ?_,
    inputSelectionHeuristic_of_reachable maxInputs htotal⟩
  exact ⟨_, isLargestSum_bestSum _ _,
    inputSelectionHeuristic_of_not_reachable hlimit maxInputs htotal hle hnot⟩

/-- Three values, an amount of 4 and two inputs: the first value is taken, as
with the third it reaches the amount; the second is passed over, as with the
first it does not. -/
theorem inputSelectionHeuristic_correct_secondSkipped :
    3 ≤ 16 ∧ [1, 2, 3].sum < 2 ^ 64 ∧
      ∃ idxs, inputSelectionHeuristic 16 [1, 2, 3] 4 2 = some (.ok idxs) ∧
        ValidSelection [1, 2, 3] (min 2 16) 4 idxs :=
  ⟨by decide, by decide,
    (inputSelectionHeuristic_correct (by decide) [1, 2, 3] (by decide) 4 2).2.2 (by decide)
      ⟨[1, 3], by decide, by decide, by decide⟩⟩

example : inputSelectionHeuristic 16 [1, 2, 3] 4 2 = some (.ok [0, 2]) := by rfl

example : inputSelectionHeuristic 16 [5, 5, 5, 5] 20 3 = some (.error (.walletCompactingNeeded 15)) := by
  rfl

end Paykit
end Fog
