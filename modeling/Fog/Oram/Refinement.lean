import Mathlib
import Fog.Oram.Storage
import Fog.Lib.Refinement

/-!
# With an honest host, the storage is a map

The storage exists so that the ORAM above it can treat it as a plain array of
tree nodes: checking out a node's path returns the blocks last checked in
along it, and zero for nodes never written.  This module states that
specification, {lean}`MapStorage.access`, and proves that the storage with a
host that keeps what it is given refines it: no checkout or checkin panics, and
every checkout returns the specification's blocks.

The proof rests on an invariant of the host's allocation, {lean}`HostInv`:
a node the host keeps is all zero exactly when it was never written, and then
its specified blocks are zero; otherwise it decrypts under its own counter to
its specified blocks; a written node stores the hash the enclave computes for
each of its children; the parent of a written node is written; and a node's
counter is the number of times it was checked in.  A checkin writes its path
bottom up, so between two nodes the parent of the node just written still holds
the child's old hash; the invariant therefore names one stale node whose link
to its parent is exempt, and every step of the check-in loop moves the
exemption one node up, until it reaches the tree top.

The counter is a wrapping {lit}`u64`, and a node written with counter 0 would
read as never written.  The refinement therefore holds for runs in which no
node kept by the host is checked in {lit}`2^64` times
({lean}`CheckinBudget`); after {lit}`2^64` check-ins of a node whose
encrypted metadata and child hashes are zero, its counter is 0 again and the
node reads back as zero ({lit}`checkout_reads_zero_after_counter_wrap`).

Main results:

- Theorem {lit}`checkoutLoop_honest`: against an honest host, the checkout loop
  passes every check and decrypts the specified blocks.
- Theorem {lit}`checkinLoop_hostInv`: the check-in loop keeps the invariant,
  with the exemption moved to its last node.
- Theorem {lit}`access_refines`: one access of the storage is one access of
  the map.
- Theorem {lit}`ocallORAMStorage_refines_map`: every run of accesses within the
  counters' range refines the map.
-/

namespace Fog
namespace Oram

open TreeIndex Store Run

variable {Data Meta Hash : Type}

/-! ## The specification -/

/-- The storage as the ORAM above it uses it: a map from tree index to data and
metadata; an access returns the blocks along the path of its index and writes
the new ones there. -/
def MapStorage.access (parents : Nat → List Nat) (m : Nat → Data × Meta)
    (op : Nat × List (Data × Meta)) : (Nat → Data × Meta) × List (Data × Meta) :=
  (writeAll m ((parents op.1).zip op.2), (parents op.1).map m)

/-- An access of a node of the tree that checks in one block per node of its
path, as the ORAM makes them. -/
def ValidAccess (parents : Nat → List Nat) (count : Nat) (op : Nat × List (Data × Meta)) : Prop :=
  0 < op.1 ∧ op.1 < count ∧ op.2.length = (parents op.1).length

/-- How many times a run of accesses checks in the node {lit}`j`: once for
every access whose path passes through it. -/
def checkins (parents : Nat → List Nat) (ops : List (Nat × List (Data × Meta))) (j : Nat) : Nat :=
  (ops.map fun op => (parents op.1).count j).sum

/-- No access checks in any node. -/
@[simp]
theorem checkins_nil (parents : Nat → List Nat) (j : Nat) :
    checkins parents ([] : List (Nat × List (Data × Meta))) j = 0 :=
  rfl

/-- An access checks in the nodes of its path, then the rest of the run theirs.
-/
@[simp]
theorem checkins_cons (parents : Nat → List Nat) (op : Nat × List (Data × Meta))
    (ops : List (Nat × List (Data × Meta))) (j : Nat) :
    checkins parents (op :: ops) j = (parents op.1).count j + checkins parents ops j := by
  simp [checkins]

/-- A node is checked in at most once per node of each access's path. -/
theorem checkins_le (parents : Nat → List Nat) (ops : List (Nat × List (Data × Meta))) (j : Nat) :
    checkins parents ops j ≤ (ops.map fun op => (parents op.1).length).sum := by
  induction ops with
  | nil => exact le_refl _
  | cons op ops ih =>
      rw [checkins_cons, List.map_cons, List.sum_cons]
      exact Nat.add_le_add List.count_le_length ih

variable [Inhabited Data] [Inhabited Meta] [Inhabited Hash] [DecidableEq Meta] [DecidableEq Hash]

/-! ## The host invariant -/

section HostInv

variable (crypto : OramCrypto Data Meta Hash) (tmc : Nat)

/-- The hash the checkout loop computes for a node the host keeps: zero for an
all-zero metadata entry, the hash of the stored block otherwise. -/
def nodeHash (store : UntrustedAllocation Data Meta Hash) (j : Nat) : Hash :=
  if (store (j - tmc)).2 = default then default
  else crypto.computeBlockHash (store (j - tmc)).1 j (store (j - tmc)).2

/-- The invariant of the host's allocation for the nodes at or above
{lit}`tmc`, except for the link from the node {lit}`stale` to its parent; the
node {lit}`j` has been checked in {lit}`ctr j` times. -/
structure HostInv (store : UntrustedAllocation Data Meta Hash) (spec : Nat → Data × Meta)
    (ctr : Nat → Nat) (stale : Option Nat) : Prop where
  unwritten : ∀ j, tmc ≤ j → (store (j - tmc)).2 = default → spec j = default
  decrypts : ∀ j, tmc ≤ j → (store (j - tmc)).2 ≠ default →
    crypto.cipher (j, (store (j - tmc)).2.2.blockCtr) ((store (j - tmc)).1, (store (j - tmc)).2.1) =
      spec j
  linked : ∀ c, tmc ≤ c / 2 → stale ≠ some c → (store (c / 2 - tmc)).2 ≠ default →
    (store (c / 2 - tmc)).2.2.childHash c = nodeHash crypto tmc store c
  upward : ∀ c, tmc ≤ c / 2 → stale ≠ some c → (store (c - tmc)).2 ≠ default →
    (store (c / 2 - tmc)).2 ≠ default
  blockCtr_eq : ∀ j, tmc ≤ j → (store (j - tmc)).2.2.blockCtr.toNat = ctr j

/-- The hash a loop hands from one node to the next is the node hash of a child
of the next node. -/
def HandsOn (store : UntrustedAllocation Data Meta Hash) (lastHash : Option (Nat × Hash))
    (js : List Nat) : Prop :=
  ∀ c h, lastHash = some (c, h) → h = nodeHash crypto tmc store c ∧ ∀ j ∈ js.head?, j = c / 2

variable {crypto tmc}

omit [Inhabited Data] in
/-- A node whose metadata is zero hashes to zero. -/
theorem nodeHash_of_eq_default {store : UntrustedAllocation Data Meta Hash} {j : Nat}
    (h : (store (j - tmc)).2 = default) : nodeHash crypto tmc store j = default :=
  if_pos h

omit [Inhabited Data] in
/-- A node with metadata hashes its data, index and metadata. -/
theorem nodeHash_of_ne_default {store : UntrustedAllocation Data Meta Hash} {j : Nat}
    (h : (store (j - tmc)).2 ≠ default) :
    nodeHash crypto tmc store j = crypto.computeBlockHash (store (j - tmc)).1 j (store (j - tmc)).2 :=
  if_neg h

omit [Inhabited Data] [Inhabited Meta] [Inhabited Hash] [DecidableEq Meta] [DecidableEq Hash] in
/-- Writing one node at or above {lit}`tmc` leaves every other such node. -/
theorem update_shift_of_ne {β : Type _} {store : Nat → β} {j j' : Nat} (hj : tmc ≤ j)
    (hj' : tmc ≤ j') (hne : j' ≠ j) (v : β) :
    Function.update store (j - tmc) v (j' - tmc) = store (j' - tmc) :=
  Function.update_of_ne (by omega) _ _

omit [Inhabited Data] in
/-- Writing one node leaves the hash of every other. -/
theorem nodeHash_update_of_ne {store : UntrustedAllocation Data Meta Hash} {j j' : Nat}
    (hj : tmc ≤ j) (hj' : tmc ≤ j') (hne : j' ≠ j) (v : Data × Scratch Meta Hash) :
    nodeHash crypto tmc (Function.update store (j - tmc) v) j' = nodeHash crypto tmc store j' := by
  unfold nodeHash
  rw [update_shift_of_ne hj hj' hne]

omit [Inhabited Data] in
/-- A node written with metadata hashes what was written. -/
theorem nodeHash_update_self {store : UntrustedAllocation Data Meta Hash} {j : Nat}
    {v : Data × Scratch Meta Hash} (hv : v.2 ≠ default) :
    nodeHash crypto tmc (Function.update store (j - tmc) v) j = crypto.computeBlockHash v.1 j v.2 := by
  unfold nodeHash
  simp [hv]

omit [Inhabited Data] in
/-- After the loop writes node {lean}`j` with metadata, it hands on the new hash
of {lean}`j`, and the next node of the chain is the parent of {lean}`j`. -/
theorem handsOn_update {store : UntrustedAllocation Data Meta Hash} {j : Nat} {js : List Nat}
    {v : Data × Scratch Meta Hash} (hv : v.2 ≠ default)
    (hchain : (j :: js).IsChain fun a b => b = a / 2) :
    HandsOn crypto tmc (Function.update store (j - tmc) v)
      (some (j, crypto.computeBlockHash v.1 j v.2)) js := by
  intro c h hsome
  obtain ⟨rfl, rfl⟩ := Prod.mk.inj (Option.some.inj hsome)
  refine ⟨(nodeHash_update_self hv).symm, fun j' hj' => ?_⟩
  cases js with
  | nil => simp at hj'
  | cons j'' js =>
      simp only [List.head?_cons, Option.mem_def, Option.some.injEq] at hj'
      subst hj'
      exact (List.isChain_cons_cons.1 hchain).1

omit [Inhabited Data] [DecidableEq Meta] [DecidableEq Hash] in
/-- Written metadata is never all zero: its counter is positive. -/
theorem ne_default_of_blockCtr_ne_zero {scratch : Scratch Meta Hash}
    (h : scratch.2.blockCtr ≠ 0) : scratch ≠ default := by
  rintro rfl
  exact h rfl

variable {store : UntrustedAllocation Data Meta Hash} {spec : Nat → Data × Meta}
  {ctr : Nat → Nat} {stale : Option Nat}

/-- The stored hash of a child is its node hash, whether the parent is written
(the link) or not (then neither is the child, and both are zero). -/
theorem HostInv.childHash_eq (hinv : HostInv crypto tmc store spec ctr stale) {c : Nat}
    (hc : tmc ≤ c / 2) (hstale : stale ≠ some c) :
    (store (c / 2 - tmc)).2.2.childHash c = nodeHash crypto tmc store c := by
  by_cases hw : (store (c / 2 - tmc)).2 = default
  · have hchild : (store (c - tmc)).2 = default := by
      by_contra hcw
      exact hinv.upward c hc hstale hcw hw
    rw [hw, nodeHash_of_eq_default hchild]
    exact ExtraMeta.childHash_default c
  · exact hinv.linked c hc hstale hw

/-- Once the stale node's parent is in the tree top, nothing is exempt. -/
theorem HostInv.unstale {c : Nat} (hinv : HostInv crypto tmc store spec ctr (some c))
    (hc : c / 2 < tmc) : HostInv crypto tmc store spec ctr none where
  unwritten := hinv.unwritten
  decrypts := hinv.decrypts
  linked c' hc' _ hw := hinv.linked c' hc' (by rintro ⟨⟩; omega) hw
  upward c' hc' _ hw := hinv.upward c' hc' (by rintro ⟨⟩; omega) hw
  blockCtr_eq := hinv.blockCtr_eq

/-- The invariant only reads the specification at or above {lit}`tmc`. -/
theorem HostInv.congr_spec {spec' : Nat → Data × Meta}
    (hinv : HostInv crypto tmc store spec ctr stale) (hspec : ∀ j, tmc ≤ j → spec' j = spec j) :
    HostInv crypto tmc store spec' ctr stale where
  unwritten j hj hw := (hspec j hj).trans (hinv.unwritten j hj hw)
  decrypts j hj hw := (hinv.decrypts j hj hw).trans (hspec j hj).symm
  linked := hinv.linked
  upward := hinv.upward
  blockCtr_eq := hinv.blockCtr_eq

/-- The invariant only reads the counts at or above {lit}`tmc`. -/
theorem HostInv.congr_ctr {ctr' : Nat → Nat} (hinv : HostInv crypto tmc store spec ctr stale)
    (hctr : ∀ j, tmc ≤ j → ctr' j = ctr j) : HostInv crypto tmc store spec ctr' stale where
  unwritten := hinv.unwritten
  decrypts := hinv.decrypts
  linked := hinv.linked
  upward := hinv.upward
  blockCtr_eq j hj := (hinv.blockCtr_eq j hj).trans (hctr j hj).symm

/-- Step lemma: writing one node, whose old stale child (if any) is one of its
children, with a block that decrypts to its new specified blocks, stores the
node hash of each of its children and carries the node's count of check-ins
plus one, keeps the invariant with the exemption moved to the written node. -/
theorem HostInv.write (hinv : HostInv crypto tmc store spec ctr stale) {j : Nat} (hj : tmc ≤ j)
    (hstale : ∀ c, stale = some c → c / 2 = j) {v : Data × Scratch Meta Hash}
    (hctr : v.2.2.blockCtr.toNat = ctr j + 1) {src : Data × Meta}
    (hdec : crypto.cipher (j, v.2.2.blockCtr) (v.1, v.2.1) = src)
    (hchildren : ∀ c, c / 2 = j → v.2.2.childHash c = nodeHash crypto tmc store c) :
    HostInv crypto tmc (Function.update store (j - tmc) v) (Function.update spec j src)
      (Function.update ctr j (ctr j + 1)) (some j) := by
  have hv : v.2 ≠ default := ne_default_of_blockCtr_ne_zero fun h0 => by
    rw [h0, UInt64.toNat_zero] at hctr
    omega
  constructor
  · intro j' hj' hw
    by_cases hjj : j' = j
    · subst hjj
      rw [Function.update_self] at hw
      exact absurd hw hv
    · rw [update_shift_of_ne hj hj' hjj] at hw
      rw [Function.update_of_ne hjj]
      exact hinv.unwritten j' hj' hw
  · intro j' hj' hw
    by_cases hjj : j' = j
    · subst hjj
      simpa using hdec
    · rw [update_shift_of_ne hj hj' hjj] at hw ⊢
      rw [Function.update_of_ne hjj]
      exact hinv.decrypts j' hj' hw
  · intro c hc hne hw
    have hcj : c ≠ j := fun h => hne (h ▸ rfl)
    rw [nodeHash_update_of_ne hj (by omega) hcj]
    by_cases hp : c / 2 = j
    · rw [hp, Function.update_self]
      exact hchildren c hp
    · rw [update_shift_of_ne hj hc hp] at hw ⊢
      exact hinv.linked c hc (fun h => hp (hstale c h)) hw
  · intro c hc hne hw
    by_cases hp : c / 2 = j
    · rw [hp, Function.update_self]
      exact hv
    · have hcj : c ≠ j := fun h => hne (h ▸ rfl)
      rw [update_shift_of_ne hj (by omega) hcj] at hw
      rw [update_shift_of_ne hj hc hp]
      exact hinv.upward c hc (fun h => hp (hstale c h)) hw
  · intro j' hj'
    by_cases hjj : j' = j
    · subst hjj
      rw [Function.update_self, Function.update_self]
      exact hctr
    · rw [update_shift_of_ne hj hj' hjj, Function.update_of_ne hjj]
      exact hinv.blockCtr_eq j' hj'

/-- The extended metadata the check-in loop writes for a node stores the node
hash of each of its children: the one handed on from below is fresh, the other
one is kept from the host's copy. -/
theorem HostInv.childHash_updateExtraMeta {lastHash : Option (Nat × Hash)}
    (hinv : HostInv crypto tmc store spec ctr (lastHash.map Prod.fst)) {j : Nat} (hj : tmc ≤ j)
    (hhands : HandsOn crypto tmc store lastHash [j]) (c : Nat) (hc : c / 2 = j) :
    (OcallORAMStorage.updateExtraMeta lastHash (store (j - tmc)).2.2).childHash c =
      nodeHash crypto tmc store c := by
  cases lastHash with
  | none =>
      rw [OcallORAMStorage.childHash_updateExtraMeta_none, ← hc]
      exact hinv.childHash_eq (hc ▸ hj) (by simp)
  | some p =>
      obtain ⟨c₀, h⟩ := p
      obtain ⟨hh, hc₀⟩ := hhands c₀ h rfl
      have hj₀ : j = c₀ / 2 := hc₀ j rfl
      by_cases hcc : c = c₀
      · subst hcc
        rw [OcallORAMStorage.childHash_updateExtraMeta_self, hh]
      · have hpar : c % 2 ≠ c₀ % 2 := by omega
        rw [OcallORAMStorage.childHash_updateExtraMeta_of_mod_ne _ h hpar, ← hc]
        exact hinv.childHash_eq (hc ▸ hj) (by simpa using Ne.symm hcc)

end HostInv

/-! ## The two loops against an honest host -/

variable {crypto : OramCrypto Data Meta Hash} {tmc : Nat}
  {store : UntrustedAllocation Data Meta Hash} {spec : Nat → Data × Meta} {ctr : Nat → Nat}

/-- The checkout loop over a consecutive run of host nodes, fed the host's own
blocks: every child hash check passes, the root check is never reached before
the tree top, and each node yields its specified blocks and keeps its extended
metadata in the scratch buffer. -/
theorem checkoutLoop_honest (hinv : HostInv crypto tmc store spec ctr none) (roots : Nat → Hash)
    (firstTreetopIndex : Nat) :
    ∀ (js : List Nat) (pos : Nat) (lastHash : Option (Nat × Hash)),
      js.IsChain (fun a b => b = a / 2) → (∀ j ∈ js, tmc ≤ j) →
      pos + js.length ≤ firstTreetopIndex → HandsOn crypto tmc store lastHash js →
      OcallORAMStorage.checkoutLoop crypto roots firstTreetopIndex pos lastHash
          (js.zip (checkoutOramStorage store (js.map (· - tmc)))) =
        some (js.map fun j => (spec j, ((spec j).2, (store (j - tmc)).2.2)))
  | [], _, _, _, _, _, _ => rfl
  | j :: js, pos, lastHash, hchain, hge, hpos, hhands => by
      have hj : tmc ≤ j := hge j List.mem_cons_self
      have hge' : ∀ j' ∈ js, tmc ≤ j' := fun j' h => hge j' (List.mem_cons_of_mem j h)
      have hpos' : pos + 1 + js.length ≤ firstTreetopIndex := by
        simp only [List.length_cons] at hpos
        omega
      have hnext : ∀ j' ∈ js.head?, j' = j / 2 := by
        intro j' hj'
        cases js with
        | nil => simp at hj'
        | cons j'' js =>
            simp only [List.head?_cons, Option.mem_def, Option.some.injEq] at hj'
            subst hj'
            exact (List.isChain_cons_cons.1 hchain).1
      have hbuf : checkoutOramStorage store ((j :: js).map (· - tmc)) =
          store (j - tmc) :: checkoutOramStorage store (js.map (· - tmc)) := rfl
      rw [hbuf, List.zip_cons_cons]
      by_cases hw : (store (j - tmc)).2 = default
      · rw [OcallORAMStorage.checkoutLoop_cons_of_eq_default crypto roots hw]
        rw [checkoutLoop_honest hinv roots firstTreetopIndex js (pos + 1) (some (j, default))
          hchain.tail hge' hpos' (fun c h hsome => by
            obtain ⟨rfl, rfl⟩ := Prod.mk.inj (Option.some.inj hsome)
            exact ⟨(nodeHash_of_eq_default hw).symm, hnext⟩)]
        have hspec := hinv.unwritten j hj hw
        simp only [hspec, hw, Option.map_some, List.map_cons]
        rfl
      · have hchild : OcallORAMStorage.childHashMatches lastHash (store (j - tmc)).2.2 = true := by
          cases lastHash with
          | none => rfl
          | some p =>
              obtain ⟨c, h⟩ := p
              obtain ⟨hh, hc⟩ := hhands c h rfl
              have hjc : j = c / 2 := hc j rfl
              subst hjc
              simp only [OcallORAMStorage.childHashMatches, decide_eq_true_eq]
              rw [hh, hinv.linked c hj (by simp) hw]
        have hroot : ¬(pos = firstTreetopIndex ∧
            roots j ≠ crypto.computeBlockHash (store (j - tmc)).1 j (store (j - tmc)).2) := by
          rintro ⟨hposeq, -⟩
          omega
        rw [OcallORAMStorage.checkoutLoop_cons_of_checked crypto roots hw hchild hroot]
        rw [checkoutLoop_honest hinv roots firstTreetopIndex js (pos + 1) _ hchain.tail hge' hpos'
          (fun c h hsome => by
            obtain ⟨rfl, rfl⟩ := Prod.mk.inj (Option.some.inj hsome)
            exact ⟨(nodeHash_of_ne_default hw).symm, hnext⟩)]
        simp [hinv.decrypts j hj hw]

/-- A counter below the largest {lit}`u64` is bumped without wrapping. -/
theorem toNat_add_one_of_lt {c : UInt64} {n : Nat} (hc : c.toNat = n) (hn : n + 1 < 2 ^ 64) :
    (c + 1).toNat = n + 1 := by
  rw [UInt64.toNat_add, UInt64.toNat_one, hc]
  exact Nat.mod_eq_of_lt hn

/-- The check-in loop over a consecutive, strictly decreasing run of host
nodes, with one block for each, whose scratch entries carry the host's extended
metadata and whose counts of check-ins are below the largest {lit}`u64`: the
host's allocation after the writes satisfies the invariant for the
specification with the new blocks and the counts with one more check-in at
every node of the run, with the exemption at the last node written.  The
induction is on the run, one node at a time. -/
theorem checkinLoop_hostInv (hcipher : ∀ n x, crypto.cipher n (crypto.cipher n x) = x)
    (g : Nat → Scratch Meta Hash) :
    ∀ (js : List Nat) (srcs : List (Data × Meta)) (store : UntrustedAllocation Data Meta Hash)
      (spec : Nat → Data × Meta) (ctr : Nat → Nat) (lastHash : Option (Nat × Hash)),
      srcs.length = js.length →
      js.IsChain (fun a b => b = a / 2) → js.Pairwise (· > ·) → (∀ j ∈ js, tmc ≤ j) →
      (∀ j ∈ js, (g j).2 = (store (j - tmc)).2.2) → (∀ j ∈ js, ctr j + 1 < 2 ^ 64) →
      HostInv crypto tmc store spec ctr (lastHash.map Prod.fst) →
      HandsOn crypto tmc store lastHash js →
      HostInv crypto tmc
        (writeAll store ((js.map (· - tmc)).zip
          (OcallORAMStorage.checkinLoop crypto lastHash (js.zip (srcs.zip (js.map g)))).1))
        (writeAll spec (js.zip srcs)) (fun j => ctr j + js.count j)
        ((OcallORAMStorage.checkinLoop crypto lastHash (js.zip (srcs.zip (js.map g)))).2.map
          Prod.fst)
  | [], _, _, _, _, _, _, _, _, _, _, _, hinv, _ => hinv
  | _ :: _, [], _, _, _, _, hlen, _, _, _, _, _, _, _ => absurd hlen (by simp)
  | j :: js, src :: srcs, store, spec, ctr, lastHash, hlen, hchain, hpair, hge, hg, hbound,
      hinv, hhands => by
      have hj : tmc ≤ j := hge j List.mem_cons_self
      have hgj : (g j).2 = (store (j - tmc)).2.2 := hg j List.mem_cons_self
      have hrest : ∀ j' ∈ js, j' < j := (List.pairwise_cons.1 hpair).1
      let ext := OcallORAMStorage.updateExtraMeta lastHash (g j).2
      let enc := crypto.cipher (j, ext.blockCtr) src
      have hext : ext.blockCtr.toNat = ctr j + 1 := by
        rw [OcallORAMStorage.blockCtr_updateExtraMeta, hgj]
        exact toNat_add_one_of_lt (hinv.blockCtr_eq j hj) (hbound j List.mem_cons_self)
      have hwrite : HostInv crypto tmc (Function.update store (j - tmc) (enc.1, (enc.2, ext)))
          (Function.update spec j src) (Function.update ctr j (ctr j + 1)) (some j) := by
        refine hinv.write hj ?_ hext (hcipher _ src) ?_
        · intro c hc
          cases lastHash with
          | none => cases hc
          | some p =>
              obtain ⟨c', h⟩ := p
              simp only [Option.map_some, Option.some.injEq] at hc
              subst hc
              exact ((hhands c' h rfl).2 j rfl).symm
        · intro c hc
          show (OcallORAMStorage.updateExtraMeta lastHash (g j).2).childHash c = _
          rw [hgj]
          exact hinv.childHash_updateExtraMeta hj
            (fun c h hsome => ⟨(hhands c h hsome).1, fun j' hj' => (hhands c h hsome).2 j' hj'⟩) c hc
      have hv : ((enc.2, ext) : Scratch Meta Hash) ≠ default :=
        ne_default_of_blockCtr_ne_zero fun h0 => by
          rw [h0, UInt64.toNat_zero] at hext
          omega
      have hinv' := checkinLoop_hostInv hcipher g js srcs _ _ _
        (some (j, crypto.computeBlockHash enc.1 j (enc.2, ext))) (by simpa using hlen)
        hchain.tail (List.pairwise_cons.1 hpair).2
        (fun j' h => hge j' (List.mem_cons_of_mem j h))
        (fun j' h => by
          rw [update_shift_of_ne hj (hge j' (List.mem_cons_of_mem j h)) (Nat.ne_of_lt (hrest j' h))]
          exact hg j' (List.mem_cons_of_mem j h))
        (fun j' h => by
          rw [Function.update_of_ne (Nat.ne_of_lt (hrest j' h))]
          exact hbound j' (List.mem_cons_of_mem j h))
        hwrite (handsOn_update (v := (enc.1, (enc.2, ext))) hv hchain)
      refine hinv'.congr_ctr fun j' _ => ?_
      rw [List.count_cons]
      by_cases hjj : j' = j
      · subst hjj
        simp [List.count_eq_zero_of_not_mem fun h => Nat.lt_irrefl _ (hrest j' h)]
      · simp [hjj, Ne.symm hjj]

/-! ## One access, and every run -/

/-- The refinement relation: the storage keeps its count and a tree top of at
least two nodes, the tree top holds the specification, and the host's
allocation satisfies the invariant with nothing exempt, the node {lit}`j`
having been checked in {lit}`ctr j` times. -/
structure Refines (crypto : OramCrypto Data Meta Hash) (count : Nat)
    (sys : OramSystem Data Meta Hash) (spec : Nat → Data × Meta) (ctr : Nat → Nat) : Prop where
  count_eq : sys.storage.count = count
  one_lt_treetopMaxCount : 1 < sys.storage.treetopMaxCount
  treetop : ∀ j < sys.storage.treetopMaxCount, sys.storage.treetop j = spec j
  host : HostInv crypto sys.storage.treetopMaxCount sys.untrusted spec ctr none

/-- A fresh allocation, whose metadata is all zero, satisfies the invariant for
the all-zero map and no check-ins: only its first and last fields say
anything. -/
theorem hostInv_new (data : Nat → Data) :
    HostInv crypto tmc (UntrustedAllocation.new data) (fun _ => default) (fun _ => 0) none :=
  ⟨fun _ _ _ => rfl, fun _ _ hw => absurd rfl hw, fun _ _ _ hw => absurd rfl hw,
    fun _ _ _ hw => absurd rfl hw, fun _ _ => rfl⟩

/-- A fresh storage over a fresh allocation refines the all-zero map, with no
check-ins. -/
theorem refines_new (crypto : OramCrypto Data Meta Hash) {count treetopMaxCount : Nat}
    (hcount : count ≠ 0 ∧ count &&& (count - 1) = 0) (htmc : 2 ≤ treetopMaxCount)
    (data : Nat → Data) :
    ∃ s, OcallORAMStorage.new count treetopMaxCount = some s ∧
      s.treetopMaxCount = treetopMaxCount ∧
      Refines crypto count ⟨s, UntrustedAllocation.new data⟩ (fun _ => default) (fun _ => 0) := by
  refine ⟨⟨count, treetopMaxCount, fun _ => default, fun _ => default, []⟩, ?_, rfl, ?_⟩
  · simp [OcallORAMStorage.new, hcount.1, hcount.2]
  · exact ⟨rfl, by simp only; omega, fun _ _ => rfl, hostInv_new data⟩

variable {parents : Nat → List Nat}

/-- The checkout of a valid index answered with any allocation that satisfies
the invariant for some map: every check passes, the host's nodes read as that
map, the tree top's nodes as the map the tree top holds, and the host nodes'
extended metadata is left in the scratch buffer.  The trusted roots play no
part. -/
theorem checkout_of_hostInv (hp : IsPathToRoot parents) {s : OcallORAMStorage Data Meta Hash}
    {reply : UntrustedAllocation Data Meta Hash} {replySpec : Nat → Data × Meta}
    (hinv : HostInv crypto s.treetopMaxCount reply replySpec ctr none)
    (htop : ∀ j < s.treetopMaxCount, s.treetop j = spec j) {index k : Nat} (h0 : 0 < index)
    (hc : index < s.count) (hk : (parents index).findIdx? (· < s.treetopMaxCount) = some k) :
    s.checkout crypto parents index (parents index).length reply =
      some (((parents index).take k).map replySpec ++ ((parents index).drop k).map spec,
        if k = 0 then s
        else { s with
          metaScratchBuffer := ((parents index).take k).map fun j =>
            ((replySpec j).2, (reply (j - s.treetopMaxCount)).2.2) }) := by
  have hback := lt_of_mem_drop_findIdx? (hp.pairwise index) hk
  have htop' : ((parents index).drop k).map s.treetop = ((parents index).drop k).map spec :=
    List.map_congr_left fun j hj => htop j (hback j hj)
  rw [OcallORAMStorage.checkout_of_findIdx? crypto parents _ _ h0 hc rfl hk]
  by_cases hk0 : k = 0
  · subst hk0
    simp only [↓reduceIte, List.take_zero, List.map_nil, List.nil_append]
    rw [htop']
  · rw [if_neg hk0, if_neg hk0, checkoutLoop_honest hinv _ k _ 0 none
      ((hp.isChain index).take k) (le_of_mem_take_findIdx? hk)
      (by rw [List.length_take]; omega) (fun _ _ h => by cases h)]
    simp only [Option.map_some, List.map_map, Function.comp_def, htop']

variable {count : Nat} {sys : OramSystem Data Meta Hash}

/-- The checkout of a valid index against the honest host returns the
specification's path. -/
theorem checkout_honest (hp : IsPathToRoot parents) (hR : Refines crypto count sys spec ctr)
    {index k : Nat} (h0 : 0 < index) (hlt : index < count)
    (hk : (parents index).findIdx? (· < sys.storage.treetopMaxCount) = some k) :
    sys.storage.checkout crypto parents index (parents index).length sys.untrusted =
      some ((parents index).map spec,
        if k = 0 then sys.storage
        else { sys.storage with
          metaScratchBuffer := ((parents index).take k).map fun j =>
            ((spec j).2, (sys.untrusted (j - sys.storage.treetopMaxCount)).2.2) }) := by
  rw [checkout_of_hostInv hp hR.host hR.treetop h0 (hR.count_eq ▸ hlt) hk, ← List.map_append,
    List.take_append_drop]

/-- The checkin of a valid index after that checkout, whose host nodes have
been checked in fewer than {lit}`2^64 - 1` times, succeeds; the state it
leaves, with the host's allocation after the writes it sends, refines the map
with the new blocks, with one more check-in at every node of the path. -/
theorem checkin_honest (hcipher : ∀ n x, crypto.cipher n (crypto.cipher n x) = x)
    (hp : IsPathToRoot parents) (hR : Refines crypto count sys spec ctr) {index k : Nat}
    (h0 : 0 < index) (hlt : index < count)
    (hk : (parents index).findIdx? (· < sys.storage.treetopMaxCount) = some k)
    (hlast : ∀ x ∈ ((parents index).take k).getLast?, x / 2 < sys.storage.treetopMaxCount)
    (hbound : ∀ j ∈ parents index, sys.storage.treetopMaxCount ≤ j → ctr j + 1 < 2 ^ 64)
    (src : List (Data × Meta)) (hlen : src.length = (parents index).length) :
    ∃ s₂ writes,
      OcallORAMStorage.checkin crypto parents
          (if k = 0 then sys.storage
            else { sys.storage with
              metaScratchBuffer := ((parents index).take k).map fun j =>
                ((spec j).2, (sys.untrusted (j - sys.storage.treetopMaxCount)).2.2) })
          index src = some (s₂, writes) ∧
        Refines crypto count ⟨s₂, checkinOramStorage sys.untrusted writes⟩
          (writeAll spec ((parents index).zip src)) (fun j => ctr j + (parents index).count j) := by
  have hfront := le_of_mem_take_findIdx? hk
  have hback := lt_of_mem_drop_findIdx? (hp.pairwise index) hk
  have hc : index < sys.storage.count := hR.count_eq ▸ hlt
  have hsplit := writeAll_zip_take_drop spec hlen k
  have hhost : ∀ j, sys.storage.treetopMaxCount ≤ j →
      writeAll spec ((parents index).zip src) j =
        writeAll spec (((parents index).take k).zip (src.take k)) j := by
    intro j hj
    rw [hsplit, writeAll_zip_of_not_mem fun hmem => by have := hback j hmem; omega]
  have hcount : ∀ j, sys.storage.treetopMaxCount ≤ j →
      ctr j + (parents index).count j = ctr j + ((parents index).take k).count j := by
    intro j hj
    have hdrop : ((parents index).drop k).count j = 0 :=
      List.count_eq_zero_of_not_mem fun hmem => by have := hback j hmem; omega
    conv_lhs => rw [← List.take_append_drop k (parents index)]
    rw [List.count_append, hdrop, Nat.add_zero]
  have htreetop : ∀ j < sys.storage.treetopMaxCount,
      writeAll sys.storage.treetop (((parents index).drop k).zip (src.drop k)) j =
        writeAll spec ((parents index).zip src) j := by
    intro j hj
    rw [hsplit]
    apply writeAll_apply_congr
    rw [writeAll_zip_of_not_mem fun hmem => by have := hfront j hmem; omega]
    exact hR.treetop j hj
  by_cases hk0 : k = 0
  · subst hk0
    rw [if_pos rfl, OcallORAMStorage.checkin_of_findIdx? crypto parents _ src h0 hc hlen.symm hk,
      if_pos rfl]
    refine ⟨_, _, rfl, hR.count_eq, hR.one_lt_treetopMaxCount, htreetop, ?_⟩
    refine (hR.host.congr_spec fun j hj => ?_).congr_ctr fun j hj => ?_
    · rw [hhost j hj]
      rfl
    · rw [hcount j hj, List.take_zero, List.count_nil, Nat.add_zero]
  · let s₁ : OcallORAMStorage Data Meta Hash := { sys.storage with
      metaScratchBuffer := ((parents index).take k).map fun j =>
        ((spec j).2, (sys.untrusted (j - sys.storage.treetopMaxCount)).2.2) }
    rw [if_neg hk0, OcallORAMStorage.checkin_of_findIdx? crypto parents s₁ src h0 hc hlen.symm hk,
      if_neg hk0]
    obtain ⟨hklen, -, -⟩ := List.findIdx?_eq_some_iff_getElem.1 hk
    have hjslen : ((parents index).take k).length = k := by
      rw [List.length_take]
      omega
    rw [OcallORAMStorage.resizeWithDefault_of_length_eq (by rw [List.length_map, hjslen])]
    have hinv := checkinLoop_hostInv hcipher
      (fun j => ((spec j).2, (sys.untrusted (j - sys.storage.treetopMaxCount)).2.2))
      ((parents index).take k) (src.take k) sys.untrusted spec ctr none
      (by rw [hjslen, List.length_take, hlen]; omega)
      ((hp.isChain index).take k) ((hp.pairwise index).sublist (List.take_sublist _ _))
      hfront (fun _ _ => rfl)
      (fun j hj => hbound j (List.mem_of_mem_take hj) (hfront j hj)) hR.host
      (fun _ _ h => by cases h)
    have hne : (parents index).take k ≠ [] := by
      rw [Ne, List.take_eq_nil_iff, not_or]
      exact ⟨hk0, List.ne_nil_of_length_pos (by omega)⟩
    obtain ⟨jl, hl, hjl, hres⟩ := OcallORAMStorage.checkinLoop_snd_eq_some crypto _
      ((src.take k).zip (((parents index).take k).map fun j =>
        ((spec j).2, (sys.untrusted (j - sys.storage.treetopMaxCount)).2.2))) hne
      (by simp [hjslen, hlen]; omega)
    rw [hres] at hinv
    dsimp only [s₁]
    rw [hres]
    refine ⟨_, _, rfl, hR.count_eq, hR.one_lt_treetopMaxCount, htreetop, ?_⟩
    exact ((hinv.unstale (hlast _ hjl)).congr_spec hhost).congr_ctr hcount

/-- Step lemma of the refinement: one valid access of the storage against the
honest host, whose host nodes have been checked in fewer than
{lit}`2^64 - 1` times, is one access of the map, with the same output, and one
more check-in at every node of its path. -/
theorem access_refines (hcipher : ∀ n x, crypto.cipher n (crypto.cipher n x) = x)
    (hp : IsPathToRoot parents) (hR : Refines crypto count sys spec ctr)
    (op : Nat × List (Data × Meta)) (hop : ValidAccess parents count op)
    (hbound : ∀ j ∈ parents op.1, sys.storage.treetopMaxCount ≤ j → ctr j + 1 < 2 ^ 64) :
    ∃ sys', OramSystem.access crypto parents sys op =
        some (sys', (MapStorage.access parents spec op).2) ∧
      Refines crypto count sys' (MapStorage.access parents spec op).1
        (fun j => ctr j + (parents op.1).count j) := by
  obtain ⟨index, src⟩ := op
  obtain ⟨h0, hlt, hlen⟩ := hop
  obtain ⟨k, hk, -, -, hlast⟩ := hp.split h0 hR.one_lt_treetopMaxCount
  obtain ⟨s₂, writes, hci, hR'⟩ := checkin_honest hcipher hp hR h0 hlt hk hlast hbound src hlen
  refine ⟨⟨s₂, checkinOramStorage sys.untrusted writes⟩, ?_, hR'⟩
  simp only [OramSystem.access, hlen, checkout_honest hp hR h0 hlt hk, hci, MapStorage.access]

/-- The runs of accesses within the counters' range: every node the host keeps
can be checked in as often as the accesses to come do without its counter
wrapping. -/
def CheckinBudget (parents : Nat → List Nat) (sys : OramSystem Data Meta Hash)
    (ops : List (Nat × List (Data × Meta))) : Prop :=
  ∀ j, sys.storage.treetopMaxCount ≤ j →
    (sys.untrusted (j - sys.storage.treetopMaxCount)).2.2.blockCtr.toNat + checkins parents ops j <
      2 ^ 64

/-- One access spends the budget of the nodes of its path: from a refining
state with a budget for it and the accesses after it, the access leaves a
budget for the accesses after it. -/
theorem access_checkinBudget (hcipher : ∀ n x, crypto.cipher n (crypto.cipher n x) = x)
    (hp : IsPathToRoot parents) (hR : Refines crypto count sys spec ctr)
    {op : Nat × List (Data × Meta)} {ops : List (Nat × List (Data × Meta))}
    (hop : ValidAccess parents count op) (hbudget : CheckinBudget parents sys (op :: ops)) :
    ∃ sys', OramSystem.access crypto parents sys op =
        some (sys', (MapStorage.access parents spec op).2) ∧
      Refines crypto count sys' (MapStorage.access parents spec op).1
        (fun j => ctr j + (parents op.1).count j) ∧ CheckinBudget parents sys' ops := by
  have hbound : ∀ j ∈ parents op.1, sys.storage.treetopMaxCount ≤ j → ctr j + 1 < 2 ^ 64 := by
    intro j hj htmc
    have h := hbudget j htmc
    rw [hR.host.blockCtr_eq j htmc, checkins_cons] at h
    have := List.count_pos_iff.2 hj
    omega
  obtain ⟨sys', hacc, hR'⟩ := access_refines hcipher hp hR op hop hbound
  refine ⟨sys', hacc, hR', fun j htmc => ?_⟩
  have htmc₀ : sys.storage.treetopMaxCount ≤ j := by
    rwa [(OramSystem.access_frame hacc).2] at htmc
  have h := hbudget j htmc₀
  rw [hR.host.blockCtr_eq j htmc₀, checkins_cons] at h
  rw [hR'.host.blockCtr_eq j htmc]
  omega

/-- Run lemma of the refinement: a prefix of a run of valid accesses within the
counters' range, from a refining state, succeeds with the map's outputs, ends
in a state refining the map's final state, and leaves the rest of the run
within range. -/
theorem runOutputs_refines (hcipher : ∀ n x, crypto.cipher n (crypto.cipher n x) = x)
    (hp : IsPathToRoot parents) (hR : Refines crypto count sys spec ctr)
    (ops rest : List (Nat × List (Data × Meta)))
    (hops : ∀ op ∈ ops ++ rest, ValidAccess parents count op)
    (hbudget : CheckinBudget parents sys (ops ++ rest)) :
    ∃ sys', runOutputs (OramSystem.access crypto parents) sys ops =
        some (sys', (runTotal (MapStorage.access parents) spec ops).2) ∧
      (∃ ctr', Refines crypto count sys' (runTotal (MapStorage.access parents) spec ops).1 ctr') ∧
      (∀ op ∈ rest, ValidAccess parents count op) ∧ CheckinBudget parents sys' rest := by
  have hstep : ∀ (sys : OramSystem Data Meta Hash) (spec : Nat → Data × Meta)
      (op : Nat × List (Data × Meta)) (ops : List (Nat × List (Data × Meta))),
      (∃ ctr, Refines crypto count sys spec ctr) →
      ((∀ op' ∈ op :: ops, ValidAccess parents count op') ∧ CheckinBudget parents sys (op :: ops)) →
      ∃ sys', OramSystem.access crypto parents sys op =
          some (sys', (MapStorage.access parents spec op).2) ∧
        (∃ ctr, Refines crypto count sys' (MapStorage.access parents spec op).1 ctr) ∧
        ((∀ op' ∈ ops, ValidAccess parents count op') ∧ CheckinBudget parents sys' ops) := by
    rintro sys spec op ops ⟨ctr, hR⟩ ⟨hvalid, hbudget⟩
    obtain ⟨sys', hacc, hR', hbudget'⟩ :=
      access_checkinBudget hcipher hp hR (hvalid op List.mem_cons_self) hbudget
    exact ⟨sys', hacc, ⟨_, hR'⟩, fun op' h => hvalid op' (List.mem_cons_of_mem op h), hbudget'⟩
  exact @runOutputs_of_simulation _ _ _ _ _ _ (fun sys spec => ∃ ctr, Refines crypto count sys spec ctr)
    (fun sys ops => (∀ op ∈ ops, ValidAccess parents count op) ∧ CheckinBudget parents sys ops)
    hstep _ _ ops rest ⟨ctr, hR⟩ ⟨hops, hbudget⟩

/-- Frame of a run: every run of accesses keeps the storage's count and the
size of its tree top. -/
theorem runOutputs_access_frame {sys' : OramSystem Data Meta Hash}
    {ops : List (Nat × List (Data × Meta))} {outs : List (List (Data × Meta))}
    (h : runOutputs (OramSystem.access crypto parents) sys ops = some (sys', outs)) :
    sys'.storage.count = sys.storage.count ∧
      sys'.storage.treetopMaxCount = sys.storage.treetopMaxCount := by
  refine invariant_runOutputs (P := fun sys'' => sys''.storage.count = sys.storage.count ∧
    sys''.storage.treetopMaxCount = sys.storage.treetopMaxCount) ?_ ⟨rfl, rfl⟩ h
  intro s₁ op r hP hr
  obtain ⟨hc, ht⟩ := OramSystem.access_frame hr
  exact ⟨hc.trans hP.1, ht.trans hP.2⟩

omit [Inhabited Data] [DecidableEq Meta] [DecidableEq Hash] in
/-- A fresh allocation has the whole budget: a run is within the counters'
range from it when no node kept by the host is checked in {lit}`2^64` times. -/
theorem checkinBudget_new {s : OcallORAMStorage Data Meta Hash} (data : Nat → Data)
    {ops : List (Nat × List (Data × Meta))}
    (hchecks : ∀ j, s.treetopMaxCount ≤ j → checkins parents ops j < 2 ^ 64) :
    CheckinBudget parents ⟨s, UntrustedAllocation.new data⟩ ops := by
  intro j hj
  show (0 : UInt64).toNat + _ < _
  simpa using hchecks j hj

/-- With a host that keeps what it is given, a cipher that decrypts what it
encrypts and a path function meeting its contract, a storage created for a
power-of-two count with a tree top of at least two nodes, driven by any
sequence of valid checkouts each followed by the checkin of the same index in
which no node kept by the host is checked in {lit}`2^64` times, never panics,
and every checkout returns along its path the blocks last checked in at each
node, and zero data and metadata at nodes never written. -/
theorem ocallORAMStorage_refines_map (crypto : OramCrypto Data Meta Hash)
    (hcipher : ∀ n x, crypto.cipher n (crypto.cipher n x) = x)
    (parents : Nat → List Nat) (hp : IsPathToRoot parents)
    (count treetopMaxCount : Nat) (hcount : count ≠ 0 ∧ count &&& (count - 1) = 0)
    (htmc : 2 ≤ treetopMaxCount) (data : Nat → Data)
    (ops : List (Nat × List (Data × Meta))) (hops : ∀ op ∈ ops, ValidAccess parents count op)
    (hchecks : ∀ j, treetopMaxCount ≤ j → checkins parents ops j < 2 ^ 64) :
    ∃ s, OcallORAMStorage.new count treetopMaxCount = some s ∧
      ∃ sys, runOutputs (OramSystem.access crypto parents) ⟨s, UntrustedAllocation.new data⟩ ops =
        some (sys, (runTotal (MapStorage.access parents) (fun _ => default) ops).2) := by
  obtain ⟨s, hnew, hs, hR⟩ := refines_new crypto hcount htmc data
  have hbudget : CheckinBudget parents ⟨s, UntrustedAllocation.new data⟩ (ops ++ []) := by
    rw [List.append_nil]
    exact checkinBudget_new data fun j hj => hchecks j (hs ▸ hj)
  obtain ⟨sys, hrun, -⟩ := runOutputs_refines hcipher hp hR ops [] (by simpa using hops) hbudget
  exact ⟨s, hnew, sys, hrun⟩

/-- The cipher and hash used with fixed inputs: the identity, and the
constant zero hash. -/
def identityCrypto : OramCrypto Nat Nat Nat :=
  ⟨fun _ x => x, fun _ _ _ => 0⟩

/-- A storage of eight nodes with a tree top of two, the identity as cipher,
and one access of node 4 (whose path 4, 2, 1 has two host nodes). -/
theorem ocallORAMStorage_refines_map_node_four :
    ∃ s, (OcallORAMStorage.new 8 2 : Option (OcallORAMStorage Nat Nat Nat)) = some s ∧
      ∃ sys, runOutputs (OramSystem.access identityCrypto pathToRoot)
          ⟨s, UntrustedAllocation.new fun _ => 0⟩ [(4, [(1, 1), (1, 1), (1, 1)])] =
        some (sys, (runTotal (MapStorage.access pathToRoot) (fun _ => default)
          [(4, [(1, 1), (1, 1), (1, 1)])]).2) :=
  ocallORAMStorage_refines_map identityCrypto (fun _ _ => rfl) pathToRoot
    isPathToRoot_pathToRoot 8 2 ⟨by decide, by decide⟩ (by decide) (fun _ => 0) _
    (fun op hop => by
      rw [List.mem_singleton] at hop
      subst hop
      exact ⟨by decide, by decide, by decide⟩)
    (fun j _ => lt_of_le_of_lt (checkins_le pathToRoot _ j) (by decide))

/-! ## A counter that wraps

The counter of a node goes up by one, wrapping, at every check-in, and an
all-zero metadata entry is taken as a node never written.  After
{lit}`2^64` check-ins of a node its counter is 0 again, and the next checkout
of it reads zeros where the map has the data last checked in.  The run below
checks in node 4 with data 1 over and over, in a storage of eight nodes with a
tree top of two, so that nodes 4 and 2 are kept by the host. -/

/-- The access that checks in data 1 and metadata 0 at every node of the path
4, 2, 1. -/
def wrapAccess : Nat × List (Nat × Nat) :=
  (4, [(1, 0), (1, 0), (1, 0)])

/-- The state after some accesses {lit}`wrapAccess`: the tree top holds data 1
at node 1, and the host's copies of nodes 4 and 2, at shifted indices 2 and 0,
hold data 1, metadata 0, zero child hashes and the counter {lit}`c`. -/
structure WrapState (c : UInt64) (sys : OramSystem Nat Nat Nat) : Prop where
  count_eq : sys.storage.count = 8
  treetopMaxCount_eq : sys.storage.treetopMaxCount = 2
  treetop_one : sys.storage.treetop 1 = (1, 0)
  node_four : sys.untrusted 2 = (1, (0, ⟨c, 0, 0⟩))
  node_two : sys.untrusted 0 = (1, (0, ⟨c, 0, 0⟩))

/-- What the access returns in that state: the data checked in, or zeros at the
host's nodes once their counter is 0. -/
def wrapOutput (c : UInt64) : List (Nat × Nat) :=
  if c = 0 then [(0, 0), (0, 0), (1, 0)] else [(1, 0), (1, 0), (1, 0)]

/-- Step lemma of the run: from the state with counter {lit}`c`, the access
returns {lean}`wrapOutput c` and reaches the state with counter {lit}`c + 1`. -/
theorem access_wrapAccess {c : UInt64} {sys : OramSystem Nat Nat Nat} (h : WrapState c sys) :
    ∃ sys', OramSystem.access identityCrypto pathToRoot sys wrapAccess =
      some (sys', wrapOutput c) ∧ WrapState (c + 1) sys' := by
  obtain ⟨⟨count, tmc, treetop, roots, buf⟩, untrusted⟩ := sys
  obtain ⟨hcount, htmc, htop, h4, h2⟩ := h
  dsimp only at hcount htmc htop h4 h2
  subst hcount htmc
  have hpath : pathToRoot 4 = [4, 2, 1] := by decide
  have hk : (pathToRoot 4).findIdx? (· < 2) = some 2 := by decide
  have hloop : OcallORAMStorage.checkoutLoop identityCrypto roots 2 0 none
      [(4, (1, (0, ⟨c, 0, 0⟩))), (2, (1, (0, ⟨c, 0, 0⟩)))] =
      some ((wrapOutput c).take 2 |>.map fun x => (x, (0, ⟨c, 0, 0⟩))) := by
    by_cases hc : c = 0
    · subst hc
      rfl
    · have hne : ((0, ⟨c, 0, 0⟩) : Scratch Nat Nat) ≠ default := ne_default_of_blockCtr_ne_zero hc
      rw [OcallORAMStorage.checkoutLoop_cons_of_checked _ _ hne rfl (by simp),
        OcallORAMStorage.checkoutLoop_cons_of_checked _ _ hne rfl (by simp)]
      simp [wrapOutput, hc, identityCrypto, OcallORAMStorage.checkoutLoop]
  have hout : OcallORAMStorage.checkout identityCrypto pathToRoot ⟨8, 2, treetop, roots, buf⟩ 4 3
      untrusted = some (wrapOutput c, ⟨8, 2, treetop, roots, [(0, ⟨c, 0, 0⟩), (0, ⟨c, 0, 0⟩)]⟩) := by
    rw [OcallORAMStorage.checkout_of_findIdx? identityCrypto pathToRoot _ untrusted (by decide)
      (by decide : 4 < 8) (by rw [hpath]; rfl) hk]
    simp only [hpath, checkoutOramStorage, List.take, List.drop, List.map, h4, h2,
      List.zip_cons_cons, List.zip_nil_left, hloop]
    by_cases hc : c = 0 <;> simp [wrapOutput, hc, htop]
  have hin : OcallORAMStorage.checkin identityCrypto pathToRoot
      ⟨8, 2, treetop, roots, [(0, ⟨c, 0, 0⟩), (0, ⟨c, 0, 0⟩)]⟩ 4 [(1, 0), (1, 0), (1, 0)] =
      some (⟨8, 2, writeAll treetop [(1, (1, 0))], Function.update roots 2 0,
          [(0, ⟨c + 1, 0, 0⟩), (0, ⟨c + 1, 0, 0⟩)]⟩,
        [(2, (1, (0, ⟨c + 1, 0, 0⟩))), (0, (1, (0, ⟨c + 1, 0, 0⟩)))]) := by
    rw [OcallORAMStorage.checkin_of_findIdx? identityCrypto pathToRoot _ _ (by decide)
      (by decide : 4 < 8) (by rw [hpath]; rfl) hk]
    simp [hpath, OcallORAMStorage.resizeWithDefault, OcallORAMStorage.checkinLoop,
      OcallORAMStorage.updateExtraMeta, ExtraMeta.setChildHash, identityCrypto]
  simp only [OramSystem.access, wrapAccess, List.length_cons, List.length_nil, hout, hin,
    Option.some.injEq, Prod.mk.injEq, and_true, exists_eq_left']
  refine ⟨rfl, rfl, ?_, ?_, ?_⟩
  · show writeAll treetop [(1, (1, 0))] 1 = (1, 0)
    simp
  · show writeAll untrusted [(2, (1, (0, ⟨c + 1, 0, 0⟩))), (0, (1, (0, ⟨c + 1, 0, 0⟩)))] 2 = _
    simp
  · show writeAll untrusted [(2, (1, (0, ⟨c + 1, 0, 0⟩))), (0, (1, (0, ⟨c + 1, 0, 0⟩)))] 0 = _
    simp

/-- Without a bound on the check-ins the refinement fails: in a storage of
eight nodes with a tree top of two, the identity as cipher and a host that
keeps what it is given, {lit}`2^64 + 1` valid accesses of node 4 run without a
panic, but the last checkout finds the counters of nodes 4 and 2 wrapped to 0
and returns zeros there, where the map returns the data 1 checked in before. -/
theorem checkout_reads_zero_after_counter_wrap :
    ∃ s sys outs, (OcallORAMStorage.new 8 2 : Option (OcallORAMStorage Nat Nat Nat)) = some s ∧
      (∀ op ∈ List.replicate (2 ^ 64 + 1) wrapAccess, ValidAccess pathToRoot 8 op) ∧
      runOutputs (OramSystem.access identityCrypto pathToRoot)
          ⟨s, UntrustedAllocation.new fun _ => 0⟩ (List.replicate (2 ^ 64 + 1) wrapAccess) =
        some (sys, outs) ∧
      outs.getLast? = some [(0, 0), (0, 0), (1, 0)] ∧
      (runTotal (MapStorage.access pathToRoot) (fun _ => default)
          (List.replicate (2 ^ 64 + 1) wrapAccess)).2.getLast? = some [(1, 0), (1, 0), (1, 0)] := by
  obtain ⟨sys₁, h₁, hw₁⟩ : ∃ sys₁, OramSystem.access identityCrypto pathToRoot
      ⟨⟨8, 2, fun _ => default, fun _ => default, []⟩, UntrustedAllocation.new fun _ => 0⟩
        wrapAccess = some (sys₁, [(0, 0), (0, 0), (0, 0)]) ∧ WrapState 1 sys₁ :=
    ⟨_, rfl, rfl, rfl, rfl, rfl, rfl⟩
  have hstep : ∀ k sys, WrapState (UInt64.ofNat k) sys → ∃ sys',
      OramSystem.access identityCrypto pathToRoot sys wrapAccess =
        some (sys', wrapOutput (UInt64.ofNat k)) ∧ WrapState (UInt64.ofNat (k + 1)) sys' := by
    intro k sys h
    rw [UInt64.ofNat_add]
    exact access_wrapAccess h
  obtain ⟨sys, hrun, -⟩ := runOutputs_replicate hstep (2 ^ 64) 1 hw₁
  have hm₁ : MapStorage.access pathToRoot (fun _ => default) wrapAccess =
      (writeAll (fun _ => default) [(4, (1, 0)), (2, (1, 0)), (1, (1, 0))],
        [(0, 0), (0, 0), (0, 0)]) :=
    rfl
  have hfix : MapStorage.access pathToRoot
      (writeAll (fun _ => default) [(4, (1, 0)), (2, (1, 0)), (1, (1, 0))]) wrapAccess =
      (writeAll (fun _ => default) [(4, (1, 0)), (2, (1, 0)), (1, (1, 0))],
        [(1, 0), (1, 0), (1, 0)]) := by
    refine Prod.ext (funext fun j => ?_) rfl
    show writeAll _ [(4, (1, 0)), (2, (1, 0)), (1, (1, 0))] j = _
    simp only [writeAll_cons, writeAll_nil, Function.update_apply]
    split_ifs <;> rfl
  refine ⟨_, sys, [(0, 0), (0, 0), (0, 0)] ::
      (List.range (2 ^ 64)).map fun i => wrapOutput (UInt64.ofNat (1 + i)),
    rfl, fun op hop => ?_, ?_, ?_, ?_⟩
  · rw [List.eq_of_mem_replicate hop]
    exact ⟨by decide, by decide, by decide⟩
  · rw [List.replicate_succ, runOutputs, h₁, Option.bind_some, hrun, Option.map_some]
  · have hwrap : UInt64.ofNat (1 + (2 ^ 64 - 1)) = 0 := by decide
    rw [List.getLast?_cons, List.getLast?_map, List.getLast?_range, if_neg (by decide),
      Option.map_some, Option.getD_some, hwrap]
    rfl
  · rw [List.replicate_succ, runTotal, hm₁, runTotal_replicate_of_fixed hfix, List.getLast?_cons,
      List.getLast?_replicate, if_neg (by decide), Option.getD_some]

end Oram
end Fog
