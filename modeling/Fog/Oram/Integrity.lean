import Fog.Oram.Refinement

/-!
# What a dishonest host can make a checkout return

The storage's design is that a host returning anything other than what was
last checked in is caught: each node's hash is stored in its parent, and the
hash of the top node of the host's part of a path is kept in enclave memory as
a trusted root, to be compared at checkout.  In the code that comparison is
guarded by {lit}`idx == first_treetop_index` inside the loop over
{lit}`0..first_treetop_index`, so it never runs; and a node whose metadata the
host returns all zero skips every check.

This module proves what follows.  The trusted roots never influence a checkout
({lit}`checkout_trustedMerkleRoots`).  Together with
{lit}`checkout_of_hostInv`, a host may answer a checkout with any allocation
that was consistent at some earlier time, its own state after an earlier
checkin or the all-zero allocation it started from, and the checkout returns
that allocation's blocks without a panic.

Main results:

- Theorem {lit}`checkoutLoop_roots_irrelevant`: the root comparison is never
  reached by the checkout loop.
- Theorem {lit}`checkout_trustedMerkleRoots`: the trusted roots never change
  what a checkout returns.
-/

namespace Fog
namespace Oram

open TreeIndex Store Run

variable {Data Meta Hash : Type} [Inhabited Data] [Inhabited Meta] [Inhabited Hash]
  [DecidableEq Meta] [DecidableEq Hash]

namespace OcallORAMStorage

/-- The loop runs over the positions before {lit}`first_treetop_index`, so the
comparison with the trusted root, made only at that position, never happens. -/
theorem checkoutLoop_roots_irrelevant (crypto : OramCrypto Data Meta Hash)
    (roots roots' : Nat → Hash) (firstTreetopIndex : Nat) :
    ∀ (pos : Nat) (lastHash : Option (Nat × Hash)) (entries : List (Nat × (Data × Scratch Meta Hash))),
      pos + entries.length ≤ firstTreetopIndex →
        checkoutLoop crypto roots firstTreetopIndex pos lastHash entries =
          checkoutLoop crypto roots' firstTreetopIndex pos lastHash entries
  | _, _, [], _ => rfl
  | pos, lastHash, (idx, data, scratch) :: rest, hpos => by
      have hpos' : pos + 1 + rest.length ≤ firstTreetopIndex := by
        simp only [List.length_cons] at hpos
        omega
      have hne : pos ≠ firstTreetopIndex := by
        simp only [List.length_cons] at hpos
        omega
      have ih := fun lastHash' =>
        checkoutLoop_roots_irrelevant crypto roots roots' firstTreetopIndex (pos + 1) lastHash' rest hpos'
      simp only [checkoutLoop, hne, false_and, if_false, ih]

/-- What a checkout returns does not depend on the trusted roots. -/
theorem checkout_trustedMerkleRoots (crypto : OramCrypto Data Meta Hash)
    (parents : Nat → List Nat) (s : OcallORAMStorage Data Meta Hash) (roots : Nat → Hash)
    (index len : Nat) (reply : UntrustedAllocation Data Meta Hash) :
    (checkout crypto parents { s with trustedMerkleRoots := roots } index len reply).map Prod.fst =
      (checkout crypto parents s index len reply).map Prod.fst := by
  unfold checkout
  dsimp only
  by_cases h0 : index = 0
  · simp [h0]
  by_cases hc : s.count ≤ index
  · simp [hc]
  by_cases hl : (parents index).length ≠ len
  · simp [hl]
  simp only [h0, hc, hl, if_false]
  cases hk : (parents index).findIdx? (· < s.treetopMaxCount) with
  | none => rfl
  | some k =>
      by_cases hk0 : k = 0
      · simp [hk0]
      · simp only [hk0, if_false]
        rw [checkoutLoop_roots_irrelevant crypto roots s.trustedMerkleRoots k 0 none _
          (by simp only [List.length_zip, List.length_take, Nat.zero_add]; omega)]
        cases checkoutLoop crypto s.trustedMerkleRoots k 0 none _ <;> rfl

end OcallORAMStorage

/-! ## Replaying an earlier allocation -/

variable {crypto : OramCrypto Data Meta Hash} {parents : Nat → List Nat}

/-- Whatever allocation the honest host held after some prefix of a run, it may
answer a checkout at the end of the run with it.  Every check passes, and the
checkout returns the blocks of that earlier time at the host's nodes of the
path, and the current blocks only at the tree top's nodes.  With the empty
prefix the replayed allocation is the fresh one, whose metadata is all zero. -/
theorem checkout_of_earlier_allocation (hcipher : ∀ n x, crypto.cipher n (crypto.cipher n x) = x)
    (hp : IsPathToRoot parents) {count treetopMaxCount : Nat}
    (hcount : count ≠ 0 ∧ count &&& (count - 1) = 0) (htmc : 2 ≤ treetopMaxCount)
    (data : Nat → Data) (ops : List (Nat × List (Data × Meta)))
    (hops : ∀ op ∈ ops, ValidAccess parents count op)
    (hchecks : ∀ j, treetopMaxCount ≤ j → checkins parents ops j < 2 ^ 64) (i : Nat)
    {index : Nat} (h0 : 0 < index) (hlt : index < count) :
    ∃ s sysᵢ sys, OcallORAMStorage.new count treetopMaxCount = some s ∧
      runOutputs (OramSystem.access crypto parents) ⟨s, UntrustedAllocation.new data⟩ (ops.take i) =
        some (sysᵢ, (runTotal (MapStorage.access parents) (fun _ => default) (ops.take i)).2) ∧
      runOutputs (OramSystem.access crypto parents) ⟨s, UntrustedAllocation.new data⟩ ops =
        some (sys, (runTotal (MapStorage.access parents) (fun _ => default) ops).2) ∧
      (sys.storage.checkout crypto parents index (parents index).length sysᵢ.untrusted).map
          Prod.fst =
        some ((parents index).map fun j =>
          if treetopMaxCount ≤ j then
            (runTotal (MapStorage.access parents) (fun _ => default) (ops.take i)).1 j
          else (runTotal (MapStorage.access parents) (fun _ => default) ops).1 j) := by
  obtain ⟨s, hnew, hs, hR⟩ := refines_new crypto hcount htmc data
  have hbudget : CheckinBudget parents ⟨s, UntrustedAllocation.new data⟩ (ops.take i ++ ops.drop i) := by
    rw [List.take_append_drop]
    exact checkinBudget_new data fun j hj => hchecks j (hs ▸ hj)
  obtain ⟨sysᵢ, hrunᵢ, ⟨ctrᵢ, hRᵢ⟩, hopsᵢ, hbudgetᵢ⟩ := runOutputs_refines hcipher hp hR
    (ops.take i) (ops.drop i) (by rwa [List.take_append_drop]) hbudget
  obtain ⟨sys, hrun, ⟨ctr, hR'⟩, -⟩ := runOutputs_refines hcipher hp hRᵢ (ops.drop i) []
    (by rwa [List.append_nil]) (by rwa [List.append_nil])
  have hwhole : runOutputs (OramSystem.access crypto parents) ⟨s, UntrustedAllocation.new data⟩ ops =
      some (sys, (runTotal (MapStorage.access parents) (fun _ => default) ops).2) := by
    rw [← List.take_append_drop i ops, runOutputs_append, hrunᵢ, Option.bind_some, hrun,
      Option.map_some, runTotal_append]
  have hspec : (runTotal (MapStorage.access parents) (fun _ => default) ops).1 =
      (runTotal (MapStorage.access parents)
        (runTotal (MapStorage.access parents) (fun _ => default) (ops.take i)).1 (ops.drop i)).1 := by
    conv_lhs => rw [← List.take_append_drop i ops, runTotal_append]
  have htmcᵢ : sysᵢ.storage.treetopMaxCount = treetopMaxCount :=
    (runOutputs_access_frame hrunᵢ).2.trans hs
  have htmc' : sys.storage.treetopMaxCount = treetopMaxCount :=
    (runOutputs_access_frame hrun).2.trans htmcᵢ
  have hinv : HostInv crypto sys.storage.treetopMaxCount sysᵢ.untrusted
      (runTotal (MapStorage.access parents) (fun _ => default) (ops.take i)).1 ctrᵢ none := by
    rw [htmc', ← htmcᵢ]
    exact hRᵢ.host
  obtain ⟨k, hk, -, -, -⟩ := hp.split h0 hR'.one_lt_treetopMaxCount
  refine ⟨s, sysᵢ, sys, hnew, hrunᵢ, hwhole, ?_⟩
  rw [checkout_of_hostInv hp hinv hR'.treetop h0 (hR'.count_eq ▸ hlt) hk, Option.map_some,
    hp.map_take_append_map_drop _ _ hk, htmc', hspec]

/-- Eight nodes with a tree top of two: node 4 is checked in with ones and then
with twos, along its path 4, 2, 1, whose nodes 4 and 2 live with the host.
The host can then answer a checkout of node 4 with its allocation after the
first access, or with its fresh allocation, and the checkout returns ones, or
zeros, at nodes 4 and 2 although twos were last checked in there.  This holds
for every cipher that decrypts what it encrypts, every hash function and every
path function meeting its contract. -/
theorem checkout_accepts_replayed_path (crypto : OramCrypto Nat Nat Nat)
    (hcipher : ∀ n x, crypto.cipher n (crypto.cipher n x) = x)
    (parents : Nat → List Nat) (hp : IsPathToRoot parents) :
    ∃ s sys₁ sys₂, OcallORAMStorage.new 8 2 = some s ∧
      runOutputs (OramSystem.access crypto parents) ⟨s, UntrustedAllocation.new fun _ => 0⟩
          [(4, [(1, 1), (1, 1), (1, 1)])] =
        some (sys₁, [[(0, 0), (0, 0), (0, 0)]]) ∧
      runOutputs (OramSystem.access crypto parents) ⟨s, UntrustedAllocation.new fun _ => 0⟩
          [(4, [(1, 1), (1, 1), (1, 1)]), (4, [(2, 2), (2, 2), (2, 2)])] =
        some (sys₂, [[(0, 0), (0, 0), (0, 0)], [(1, 1), (1, 1), (1, 1)]]) ∧
      (sys₂.storage.checkout crypto parents 4 3 sys₁.untrusted).map Prod.fst =
        some [(1, 1), (1, 1), (2, 2)] ∧
      (sys₂.storage.checkout crypto parents 4 3 (UntrustedAllocation.new fun _ => 0)).map Prod.fst =
        some [(0, 0), (0, 0), (2, 2)] := by
  obtain rfl : parents = pathToRoot := funext hp.eq_pathToRoot
  have hops : ∀ op ∈ [(4, [(1, 1), (1, 1), (1, 1)]), (4, [(2, 2), (2, 2), (2, 2)])],
      ValidAccess pathToRoot 8 op := by
    intro op hop
    simp only [List.mem_cons, List.not_mem_nil, or_false] at hop
    rcases hop with rfl | rfl <;> exact ⟨by decide, by decide, by decide⟩
  have hchecks : ∀ j, 2 ≤ j → checkins pathToRoot
      [(4, [(1, 1), (1, 1), (1, 1)]), (4, [(2, 2), (2, 2), (2, 2)])] j < 2 ^ 64 :=
    fun j _ => lt_of_le_of_lt (checkins_le pathToRoot _ j) (by decide)
  have hcount : (8 : Nat) ≠ 0 ∧ (8 : Nat) &&& (8 - 1) = 0 := ⟨by decide, by decide⟩
  have hpath : 0 < 4 ∧ 4 < 8 := ⟨by decide, by decide⟩
  obtain ⟨s, sys₁, sys₂, hnew, hrun₁, hrun₂, hout₁⟩ := checkout_of_earlier_allocation hcipher
    isPathToRoot_pathToRoot hcount (le_refl 2) (fun _ => 0) _ hops hchecks 1 hpath.1 hpath.2
  obtain ⟨s', sys₀, sys₂', hnew', hrun₀, hrun₂', hout₀⟩ := checkout_of_earlier_allocation hcipher
    isPathToRoot_pathToRoot hcount (le_refl 2) (fun _ => 0) _ hops hchecks 0 hpath.1 hpath.2
  obtain rfl : s' = s := Option.some.inj (hnew'.symm.trans hnew)
  obtain rfl : sys₂' = sys₂ := (Prod.mk.inj (Option.some.inj (hrun₂'.symm.trans hrun₂))).1
  obtain rfl : sys₀ = ⟨s', UntrustedAllocation.new fun _ => 0⟩ :=
    (Prod.mk.inj (Option.some.inj hrun₀)).1.symm
  have hmap₁ : (runTotal (MapStorage.access pathToRoot) (fun _ => (default : Nat × Nat))
      [(4, [(1, 1), (1, 1), (1, 1)])]).2 = [[(0, 0), (0, 0), (0, 0)]] := by decide
  have hmap₂ : (runTotal (MapStorage.access pathToRoot) (fun _ => (default : Nat × Nat))
      [(4, [(1, 1), (1, 1), (1, 1)]), (4, [(2, 2), (2, 2), (2, 2)])]).2 =
        [[(0, 0), (0, 0), (0, 0)], [(1, 1), (1, 1), (1, 1)]] := by decide
  have hlen : (pathToRoot 4).length = 3 := by decide
  rw [List.take_one, List.head?_cons, Option.toList_some, hmap₁] at hrun₁
  rw [hmap₂] at hrun₂
  rw [hlen] at hout₁ hout₀
  exact ⟨s', sys₁, sys₂', hnew, hrun₁, hrun₂, hout₁.trans (by decide), hout₀.trans (by decide)⟩

/-- The failing input with the identity as cipher and the fuelled path. -/
theorem checkout_accepts_replayed_path_identity :
    ∃ s sys₁ sys₂, OcallORAMStorage.new 8 2 = some s ∧
      runOutputs (OramSystem.access identityCrypto pathToRoot)
          ⟨s, UntrustedAllocation.new fun _ => 0⟩ [(4, [(1, 1), (1, 1), (1, 1)])] =
        some (sys₁, [[(0, 0), (0, 0), (0, 0)]]) ∧
      runOutputs (OramSystem.access identityCrypto pathToRoot)
          ⟨s, UntrustedAllocation.new fun _ => 0⟩
          [(4, [(1, 1), (1, 1), (1, 1)]), (4, [(2, 2), (2, 2), (2, 2)])] =
        some (sys₂, [[(0, 0), (0, 0), (0, 0)], [(1, 1), (1, 1), (1, 1)]]) ∧
      (sys₂.storage.checkout identityCrypto pathToRoot 4 3 sys₁.untrusted).map Prod.fst =
        some [(1, 1), (1, 1), (2, 2)] ∧
      (sys₂.storage.checkout identityCrypto pathToRoot 4 3
          (UntrustedAllocation.new fun _ => 0)).map Prod.fst =
        some [(0, 0), (0, 0), (2, 2)] :=
  checkout_accepts_replayed_path identityCrypto (fun _ _ => rfl) pathToRoot isPathToRoot_pathToRoot

end Oram
end Fog
