import Mathlib.Data.List.Chain

/-!
# Paths in a heap-indexed complete binary tree

A complete binary tree stored in heap order numbers its root 1 and the
children of node {lit}`n` as {lit}`2n` and {lit}`2n+1`; the parent of a node
is {lit}`n / 2`.  The path from a node to the root is the node followed by its
ancestors.  Code that walks such paths gets them from a tree-index library; this
module states what such a path function must satisfy, {lean}`TreeIndex.IsPathToRoot`,
and collects the facts about it that the proofs of tree-shaped storage use:
consecutive nodes are parent and child, the path strictly decreases, and
cutting it at the first node below a threshold separates the nodes at or above
the threshold from those below.  One path function meeting the contract,
{lean}`TreeIndex.pathToRoot`, is defined by structural recursion on fuel, so
that it evaluates by {lit}`decide`.

Main results:

- Theorem {lit}`TreeIndex.isPathToRoot_pathToRoot`: the fuelled path meets the
  contract.
- Theorem {lit}`TreeIndex.IsPathToRoot.eq_pathToRoot`: the contract determines
  the path function.
- Theorem {lit}`TreeIndex.IsPathToRoot.isChain`: each node of a path is the
  parent of the one before it.
- Theorem {lit}`TreeIndex.IsPathToRoot.split`: cutting a path at the first node
  below a threshold {lit}`t > 1` leaves the nodes at or above {lit}`t` in front,
  those below behind, and the last front node a child of a node below {lit}`t`.
-/

namespace TreeIndex

/-- The contract of a path function: the index 0, which is no node, has no
path, and the path of a node is the node followed by its parent's path. -/
structure IsPathToRoot (parents : Nat → List Nat) : Prop where
  zero : parents 0 = []
  pos : ∀ {n : Nat}, 0 < n → parents n = n :: parents (n / 2)

/-- The path from {lit}`n` up to the root, with a bound on its length. -/
def parentsFuel : Nat → Nat → List Nat
  | 0, _ => []
  | fuel + 1, n => if n = 0 then [] else n :: parentsFuel fuel (n / 2)

/-- The node {lit}`n` followed by its ancestors {lit}`n / 2, n / 4, ..., 1`;
empty for the index 0.  A path has at most {lit}`n` nodes, so {lit}`n` is
enough fuel. -/
def pathToRoot (n : Nat) : List Nat :=
  parentsFuel n n

/-- Any fuel at least the node gives the same path. -/
theorem parentsFuel_congr :
    ∀ (fuel fuel' n : Nat), n ≤ fuel → n ≤ fuel' → parentsFuel fuel n = parentsFuel fuel' n
  | 0, fuel', n, h, _ => by
      have hn : n = 0 := by omega
      subst hn
      cases fuel' <;> simp [parentsFuel]
  | fuel + 1, 0, n, _, h' => by
      have hn : n = 0 := by omega
      subst hn
      simp [parentsFuel]
  | fuel + 1, fuel' + 1, n, h, h' => by
      simp only [parentsFuel]
      split
      · rfl
      · rw [parentsFuel_congr fuel fuel' (n / 2) (by omega) (by omega)]

/-- The fuelled path meets the contract. -/
theorem isPathToRoot_pathToRoot : IsPathToRoot pathToRoot where
  zero := rfl
  pos {n} h := by
    obtain ⟨m, rfl⟩ : ∃ m, n = m + 1 := ⟨n - 1, by omega⟩
    simp only [pathToRoot, parentsFuel, Nat.add_one_ne_zero, if_false, List.cons.injEq, true_and]
    exact parentsFuel_congr m ((m + 1) / 2) ((m + 1) / 2) (by omega) le_rfl

example : pathToRoot 12 = [12, 6, 3, 1] := by decide

namespace IsPathToRoot

variable {parents : Nat → List Nat} (hp : IsPathToRoot parents)
include hp

/-- Every node of a path is a positive index no larger than its start. -/
theorem pos_le_of_mem : ∀ {n m : Nat}, m ∈ parents n → 0 < m ∧ m ≤ n
  | 0, m, h => by simp [hp.zero] at h
  | n + 1, m, h => by
      rw [hp.pos (Nat.succ_pos n), List.mem_cons] at h
      rcases h with rfl | h
      · omega
      · have := pos_le_of_mem h
        omega

/-- The path of a node ends at the root. -/
theorem one_mem : ∀ {n : Nat}, 0 < n → 1 ∈ parents n
  | n + 1, _ => by
      rw [hp.pos (Nat.succ_pos n)]
      by_cases h : (n + 1) / 2 = 0
      · have hn : n = 0 := by omega
        simp [hn]
      · exact List.mem_cons_of_mem _ (one_mem (Nat.pos_of_ne_zero h))

/-- Each node of a path is the parent of the node before it. -/
theorem isChain : ∀ n : Nat, (parents n).IsChain (fun a b => b = a / 2)
  | 0 => by simp [hp.zero]
  | n + 1 => by
      rw [hp.pos (Nat.succ_pos n)]
      by_cases h : (n + 1) / 2 = 0
      · rw [h, hp.zero]
        exact List.isChain_singleton _
      · rw [hp.pos (Nat.pos_of_ne_zero h)]
        refine List.isChain_cons_cons.2 ⟨rfl, ?_⟩
        rw [← hp.pos (Nat.pos_of_ne_zero h)]
        exact isChain ((n + 1) / 2)

/-- The contract determines the path function: it agrees with the fuelled
path everywhere. -/
theorem eq_pathToRoot : ∀ n : Nat, parents n = pathToRoot n
  | 0 => by rw [hp.zero, isPathToRoot_pathToRoot.zero]
  | n + 1 => by
      rw [hp.pos (Nat.succ_pos n), isPathToRoot_pathToRoot.pos (Nat.succ_pos n),
        eq_pathToRoot ((n + 1) / 2)]

/-- A path strictly decreases towards the root. -/
theorem pairwise : ∀ n : Nat, (parents n).Pairwise (· > ·)
  | 0 => by simp [hp.zero]
  | n + 1 => by
      rw [hp.pos (Nat.succ_pos n), List.pairwise_cons]
      refine ⟨fun m hm => ?_, pairwise ((n + 1) / 2)⟩
      have := (hp.pos_le_of_mem hm).2
      omega

end IsPathToRoot

/-! ## Cutting a path at a threshold -/

/-- In a strictly decreasing list, everything from the first element below a
threshold on is below it. -/
theorem lt_of_mem_drop_findIdx? {l : List Nat} {t k : Nat} (hl : l.Pairwise (· > ·))
    (hk : l.findIdx? (· < t) = some k) : ∀ x ∈ l.drop k, x < t := by
  obtain ⟨hlen, hlt, -⟩ := List.findIdx?_eq_some_iff_getElem.1 hk
  rw [← List.take_append_drop k l, List.pairwise_append] at hl
  intro x hx
  rcases List.mem_iff_getElem.1 hx with ⟨i, hi, rfl⟩
  cases i with
  | zero => simpa using hlt
  | succ i =>
      have hdrop : (l.drop k).Pairwise (· > ·) := hl.2.1
      have hgt := List.pairwise_iff_getElem.1 hdrop 0 (i + 1) (by omega) hi (by omega)
      simp only [List.getElem_drop, Nat.add_zero] at hgt ⊢
      simp only [decide_eq_true_eq] at hlt
      omega

/-- Everything before the first element below a threshold is at or above it. -/
theorem le_of_mem_take_findIdx? {l : List Nat} {t k : Nat}
    (hk : l.findIdx? (· < t) = some k) : ∀ x ∈ l.take k, t ≤ x := by
  obtain ⟨hlen, -, hbefore⟩ := List.findIdx?_eq_some_iff_getElem.1 hk
  intro x hx
  rcases List.mem_iff_getElem.1 hx with ⟨i, hi, rfl⟩
  have hik : i < k := by
    simp only [List.length_take] at hi
    omega
  have := hbefore i hik
  simp only [List.getElem_take, decide_eq_true_eq] at this ⊢
  omega

namespace IsPathToRoot

variable {parents : Nat → List Nat} (hp : IsPathToRoot parents)
include hp

/-- Cutting the path of a node at the first node below {lit}`t > 1`: the cut
exists, the front nodes are at or above {lit}`t`, the rest below, and the parent
of the last front node is below {lit}`t`. -/
theorem split {n t : Nat} (hn : 0 < n) (ht : 1 < t) :
    ∃ k, (parents n).findIdx? (· < t) = some k ∧
      (∀ x ∈ (parents n).take k, t ≤ x) ∧ (∀ x ∈ (parents n).drop k, x < t) ∧
      ∀ x ∈ ((parents n).take k).getLast?, x / 2 < t := by
  have hsome : ((parents n).findIdx? (· < t)).isSome := by
    rw [List.findIdx?_isSome, List.any_eq_true]
    exact ⟨1, hp.one_mem hn, by simpa using ht⟩
  obtain ⟨k, hk⟩ := Option.isSome_iff_exists.1 hsome
  have hdrop := lt_of_mem_drop_findIdx? (hp.pairwise n) hk
  refine ⟨k, hk, le_of_mem_take_findIdx? hk, hdrop, ?_⟩
  intro x hx
  have hchain := hp.isChain n
  rw [← List.take_append_drop k (parents n), List.isChain_append] at hchain
  obtain ⟨hlen, -, -⟩ := List.findIdx?_eq_some_iff_getElem.1 hk
  have hhead : (parents n)[k] ∈ ((parents n).drop k).head? := by
    rw [List.head?_drop, List.getElem?_eq_getElem hlen]
    rfl
  rw [← hchain.2.2 x hx _ hhead]
  exact hdrop _ (List.mem_of_mem_head? hhead)

/-- Reading the front of a cut path from one store and the rest from another
reads each node from the store its side of the threshold selects. -/
theorem map_take_append_map_drop {β : Type _} {n t k : Nat} (f g : Nat → β)
    (hk : (parents n).findIdx? (· < t) = some k) :
    ((parents n).take k).map f ++ ((parents n).drop k).map g =
      (parents n).map fun j => if t ≤ j then f j else g j := by
  have hfront : ((parents n).take k).map f =
      ((parents n).take k).map fun j => if t ≤ j then f j else g j :=
    List.map_congr_left fun j hj => (if_pos (le_of_mem_take_findIdx? hk j hj)).symm
  have hback : ((parents n).drop k).map g =
      ((parents n).drop k).map fun j => if t ≤ j then f j else g j :=
    List.map_congr_left fun j hj =>
      (if_neg (Nat.not_le.2 (lt_of_mem_drop_findIdx? (hp.pairwise n) hk j hj))).symm
  rw [hfront, hback, ← List.map_append, List.take_append_drop]

end IsPathToRoot

end TreeIndex
