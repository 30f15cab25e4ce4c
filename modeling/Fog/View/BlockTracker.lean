import Fog.RecoveryDb.Types
import Fog.Lib.Run
import Mathlib.Data.List.AList

/-!
# The view server's block tracker

{lit}`BlockTracker` of `fog/view/server/src/block_tracker.rs`: for every known
ingress key the last block processed with it, and the highest block count up to
which every key has provided its data.  The {lit}`HashMap` of the source is an
association list; its iteration order is never observed by the functions
modelled here except through the maximum in
{lit}`highest_known_block_count`, which does not depend on it.

The loop of {lit}`highest_fully_processed_block_count` runs with a fuel equal
to the distance from the cursor to the highest known count; theorem
{lit}`BlockTracker.advance_eq` is the loop's own unfolding equation, so the
fuel is exactly the number of iterations the source can make.

Main results:

- Theorem {lit}`BlockTracker.highestKnownBlockCount_le_of_blockProcessed`:
  a successful {lit}`block_processed` never lowers the highest known count.
- Theorem {lit}`BlockTracker.advance_spec`: from a cursor at most the highest
  known count, the loop stops at a count at most the highest known one, and
  with no reason exactly when it reaches it.
- Theorem {lit}`BlockTracker.highestFullyProcessedBlockCount_eq_least_stop`:
  the count is the least one from the previous count on at which the loop must
  stop, with the first waiting record as its reason.
- Theorem {lit}`BlockTracker.highestFullyProcessedBlockCount_of_nextBlocks_eq_empty`:
  with no next block to load, no record waits below the highest known count.
-/

namespace Fog
namespace View

open RecoveryDb

/-- The block tracker state: the last block processed for every ingress key, and
the last highest processed block count that was computed. -/
structure BlockTracker (K : Type) where
  processedBlockPerIngressKey : AList (fun _ : K => Nat)
  lastHighestProcessedBlockCount : Nat

namespace BlockTracker

variable {K : Type} [DecidableEq K]

/-- {lit}`BlockTracker::new`: nothing processed, count zero. -/
def new : BlockTracker K :=
  ⟨∅, 0⟩

/-! ## Next blocks to load -/

/-- The block the tracker asks for next with this record's key: the block after
the last processed one, or the start block if none was processed, provided the
record still covers it. -/
def nextBlockFor (t : BlockTracker K) (rec : IngressPublicKeyRecord K) : Option Nat :=
  match t.processedBlockPerIngressKey.lookup rec.key with
  | some lastProcessedBlock =>
      if rec.coversBlockIndex (lastProcessedBlock + 1) then some (lastProcessedBlock + 1)
      else none
  | none =>
      if rec.coversBlockIndex rec.status.startBlock then some rec.status.startBlock
      else none

/-- Record the candidate of one record; a later record with the same key
overwrites an earlier one, as {lit}`HashMap::insert` does. -/
def insertNextBlock (t : BlockTracker K) (acc : AList (fun _ : K => Nat))
    (rec : IngressPublicKeyRecord K) : AList (fun _ : K => Nat) :=
  match t.nextBlockFor rec with
  | some b => acc.insert rec.key b
  | none => acc

/-- {lit}`BlockTracker::next_blocks`. -/
def nextBlocks (t : BlockTracker K) (ingressKeyRecords : List (IngressPublicKeyRecord K)) :
    AList (fun _ : K => Nat) :=
  ingressKeyRecords.foldl t.insertNextBlock ∅

/-- Every entry of a fold of candidates comes from the accumulator or from the
candidate of a record of the list with that key. -/
theorem lookup_foldl_insertNextBlock (t : BlockTracker K) :
    ∀ (recs : List (IngressPublicKeyRecord K)) (acc : AList (fun _ : K => Nat)) {k : K} {b : Nat},
      (recs.foldl t.insertNextBlock acc).lookup k = some b →
        acc.lookup k = some b ∨ ∃ rec ∈ recs, rec.key = k ∧ t.nextBlockFor rec = some b
  | [], acc, k, b, h => Or.inl h
  | rec :: recs, acc, k, b, h => by
      rcases lookup_foldl_insertNextBlock t recs (t.insertNextBlock acc rec) h with hacc | ⟨r, hr, hk, hb⟩
      · unfold insertNextBlock at hacc
        cases hnext : t.nextBlockFor rec with
        | none =>
            rw [hnext] at hacc
            exact Or.inl hacc
        | some b' =>
            rw [hnext] at hacc
            by_cases hkey : k = rec.key
            · subst hkey
              rw [AList.lookup_insert, Option.some.injEq] at hacc
              subst hacc
              exact Or.inr ⟨rec, List.mem_cons_self, rfl, hnext⟩
            · rw [AList.lookup_insert_ne hkey] at hacc
              exact Or.inl hacc
      · exact Or.inr ⟨r, List.mem_cons_of_mem _ hr, hk, hb⟩

/-- Every pair returned by {lit}`next_blocks` is the candidate of one of the
records passed in. -/
theorem exists_of_lookup_nextBlocks {t : BlockTracker K}
    {recs : List (IngressPublicKeyRecord K)} {k : K} {b : Nat}
    (h : (t.nextBlocks recs).lookup k = some b) :
    ∃ rec ∈ recs, rec.key = k ∧ t.nextBlockFor rec = some b := by
  rcases lookup_foldl_insertNextBlock t recs ∅ h with hempty | hrec
  · simp at hempty
  · exact hrec

/-- One record's candidate adds its key, and no insertion removes a key. -/
theorem lookup_insertNextBlock_isSome (t : BlockTracker K) {acc : AList (fun _ : K => Nat)}
    {rec : IngressPublicKeyRecord K} {k : K}
    (h : (acc.lookup k).isSome ∨ (rec.key = k ∧ (t.nextBlockFor rec).isSome)) :
    ((t.insertNextBlock acc rec).lookup k).isSome := by
  unfold insertNextBlock
  cases hnext : t.nextBlockFor rec with
  | none =>
      rcases h with hacc | ⟨-, hsome⟩
      · exact hacc
      · simp [hnext] at hsome
  | some b =>
      by_cases hkey : k = rec.key
      · rw [hkey, AList.lookup_insert]
        rfl
      · rw [AList.lookup_insert_ne hkey]
        rcases h with hacc | ⟨hk, -⟩
        · exact hacc
        · exact absurd hk.symm hkey

/-- A record of the list with a candidate has its key among the next blocks. -/
theorem lookup_nextBlocks_isSome {t : BlockTracker K} {recs : List (IngressPublicKeyRecord K)}
    {rec : IngressPublicKeyRecord K} (hmem : rec ∈ recs) (hnext : (t.nextBlockFor rec).isSome) :
    ((t.nextBlocks recs).lookup rec.key).isSome := by
  unfold nextBlocks
  suffices h : ∀ (recs : List (IngressPublicKeyRecord K)) (acc : AList (fun _ : K => Nat)),
      ((acc.lookup rec.key).isSome ∨ rec ∈ recs) →
        ((recs.foldl t.insertNextBlock acc).lookup rec.key).isSome from
    h recs ∅ (Or.inr hmem)
  intro recs
  induction recs with
  | nil =>
      intro acc hacc
      simpa using hacc
  | cons r rest ih =>
      intro acc hacc
      apply ih
      rcases hacc with hacc | hmem'
      · exact Or.inl (lookup_insertNextBlock_isSome t (Or.inl hacc))
      · rcases List.mem_cons.1 hmem' with rfl | hrest
        · exact Or.inl (lookup_insertNextBlock_isSome t (Or.inr ⟨rfl, hnext⟩))
        · exact Or.inr hrest

/-! ## Processing a block -/

/-- {lit}`BlockTracker::block_processed`; {lean}`none` is the panic of its
assertion that a key only moves to the block after its last one. -/
def blockProcessed (t : BlockTracker K) (ingressKey : K) (blockIndex : Nat) :
    Option (BlockTracker K) :=
  let t' := { t with
    processedBlockPerIngressKey := t.processedBlockPerIngressKey.insert ingressKey blockIndex }
  match t.processedBlockPerIngressKey.lookup ingressKey with
  | some previousBlockIndex => if blockIndex = previousBlockIndex + 1 then some t' else none
  | none => some t'

/-- Exactly what a successful {lit}`block_processed` does: the key was absent or
at the previous block, and the map now sends it to the new block. -/
theorem blockProcessed_eq_some {t t' : BlockTracker K} {k : K} {b : Nat}
    (h : t.blockProcessed k b = some t') :
    (∀ prev, t.processedBlockPerIngressKey.lookup k = some prev → b = prev + 1) ∧
      t' = { t with
        processedBlockPerIngressKey := t.processedBlockPerIngressKey.insert k b } := by
  unfold blockProcessed at h
  cases hprev : t.processedBlockPerIngressKey.lookup k with
  | none =>
      simp only [hprev, Option.some.injEq] at h
      exact ⟨fun prev hp => by simp at hp, h.symm⟩
  | some prev =>
      by_cases hb : b = prev + 1
      · simp only [hprev, if_pos hb, Option.some.injEq] at h
        refine ⟨fun p hp => ?_, h.symm⟩
        rw [Option.some.injEq] at hp
        rw [← hp]
        exact hb
      · simp [hprev, hb] at h

/-- {lit}`block_processed` fails exactly when the key is at another block than
the one before. -/
theorem blockProcessed_eq_none_iff (t : BlockTracker K) (k : K) (b : Nat) :
    t.blockProcessed k b = none ↔
      ∃ prev, t.processedBlockPerIngressKey.lookup k = some prev ∧ b ≠ prev + 1 := by
  unfold blockProcessed
  cases hprev : t.processedBlockPerIngressKey.lookup k with
  | none => simp
  | some prev =>
      by_cases hb : b = prev + 1
      · simp [hb]
      · simp [hb]

/-- {lit}`block_processed` leaves the stored cursor alone. -/
@[simp]
theorem blockProcessed_lastHighestProcessedBlockCount {t t' : BlockTracker K} {k : K} {b : Nat}
    (h : t.blockProcessed k b = some t') :
    t'.lastHighestProcessedBlockCount = t.lastHighestProcessedBlockCount := by
  rw [(blockProcessed_eq_some h).2]

/-! ## Highest known block count -/

/-- {lit}`BlockTracker::highest_known_block_count`: one past the largest
processed block over all keys, or zero. -/
def highestKnownBlockCount (t : BlockTracker K) : Nat :=
  ((t.processedBlockPerIngressKey.entries.map fun e => e.2 + 1).max?).getD 0

omit [DecidableEq K] in
/-- The maximum with default zero is bounded exactly when every element is. -/
private theorem max?_getD_zero_le_iff (l : List Nat) (n : Nat) :
    l.max?.getD 0 ≤ n ↔ ∀ a ∈ l, a ≤ n := by
  cases hmax : l.max? with
  | none =>
      rw [List.max?_eq_none_iff] at hmax
      simp [hmax]
  | some m =>
      rw [Option.getD_some]
      exact List.max?_le_iff hmax

/-- The highest known count is bounded exactly when every processed block is
below the bound. -/
theorem highestKnownBlockCount_le_iff (t : BlockTracker K) (n : Nat) :
    t.highestKnownBlockCount ≤ n ↔
      ∀ k b, t.processedBlockPerIngressKey.lookup k = some b → b + 1 ≤ n := by
  unfold highestKnownBlockCount
  rw [max?_getD_zero_le_iff]
  constructor
  · intro h k b hb
    apply h
    rw [List.mem_map]
    exact ⟨⟨k, b⟩, AList.mem_lookup_iff.1 hb, rfl⟩
  · intro h a ha
    rw [List.mem_map] at ha
    obtain ⟨⟨k, b⟩, hmem, rfl⟩ := ha
    exact h k b (AList.mem_lookup_iff.2 hmem)

/-- Every processed block is below the highest known count. -/
theorem lt_highestKnownBlockCount {t : BlockTracker K} {k : K} {b : Nat}
    (h : t.processedBlockPerIngressKey.lookup k = some b) :
    b < t.highestKnownBlockCount := by
  by_contra hlt
  have hle : t.highestKnownBlockCount ≤ b := Nat.le_of_not_lt hlt
  have := (highestKnownBlockCount_le_iff t b).1 hle k b h
  omega

/-- A successful {lit}`block_processed` never lowers the highest known count:
an old key only moves forward, and a new key only adds an entry. -/
theorem highestKnownBlockCount_le_of_blockProcessed {t t' : BlockTracker K} {k : K} {b : Nat}
    (h : t.blockProcessed k b = some t') :
    t.highestKnownBlockCount ≤ t'.highestKnownBlockCount := by
  obtain ⟨hprev, rfl⟩ := blockProcessed_eq_some h
  rw [highestKnownBlockCount_le_iff]
  intro k' b' hb'
  apply Nat.succ_le_of_lt
  by_cases hk : k' = k
  · subst hk
    have hnew : b' < b := by
      have := hprev b' hb'
      omega
    have hlt : b < highestKnownBlockCount
        { t with processedBlockPerIngressKey := t.processedBlockPerIngressKey.insert k' b } :=
      lt_highestKnownBlockCount (k := k') (by simp)
    omega
  · exact lt_highestKnownBlockCount (k := k') (by simpa [AList.lookup_insert_ne hk] using hb')

/-! ## Highest fully processed block count -/

/-- The first record, in the order given, that must provide this block index
and has not provided it yet: it covers the index, and its key has processed
nothing or only blocks before the index. -/
def blockingRecord (t : BlockTracker K) (ingressKeys : List (IngressPublicKeyRecord K))
    (nextBlockIndex : Nat) : Option (IngressPublicKeyRecord K) :=
  ingressKeys.find? fun rec =>
    rec.coversBlockIndex nextBlockIndex &&
      match t.processedBlockPerIngressKey.lookup rec.key with
      | some lastProcessedBlock => decide (nextBlockIndex > lastProcessedBlock)
      | none => true

/-- The labelled loop of {lit}`highest_fully_processed_block_count`, with
{lit}`fuel` bounding its iterations.  Each pass either stops (past the highest
known count, or at a blocking record) or moves the cursor one block on. -/
def advanceLoop (t : BlockTracker K) (ingressKeys : List (IngressPublicKeyRecord K))
    (highestKnownBlockCount : Nat) : Nat → Nat → Nat × Option (IngressPublicKeyRecord K)
  | 0, last => (last, none)
  | fuel + 1, last =>
      if highestKnownBlockCount < last + 1 then (last, none)
      else
        match t.blockingRecord ingressKeys last with
        | some rec => (last, some rec)
        | none => advanceLoop t ingressKeys highestKnownBlockCount fuel (last + 1)

/-- The loop run from a cursor, with fuel the distance to the highest known
count. -/
def advance (t : BlockTracker K) (ingressKeys : List (IngressPublicKeyRecord K))
    (highestKnownBlockCount last : Nat) : Nat × Option (IngressPublicKeyRecord K) :=
  t.advanceLoop ingressKeys highestKnownBlockCount (highestKnownBlockCount - last) last

/-- The unfolding equation of the source loop: the fuel never runs out before
the loop itself stops. -/
theorem advance_eq (t : BlockTracker K) (ingressKeys : List (IngressPublicKeyRecord K))
    (hk last : Nat) :
    t.advance ingressKeys hk last =
      if hk < last + 1 then (last, none)
      else
        match t.blockingRecord ingressKeys last with
        | some rec => (last, some rec)
        | none => t.advance ingressKeys hk (last + 1) := by
  unfold advance
  by_cases hstop : hk < last + 1
  · have hfuel : hk - last = 0 := by omega
    rw [hfuel, if_pos hstop]
    rfl
  · have hfuel : hk - last = (hk - (last + 1)) + 1 := by omega
    rw [hfuel, if_neg hstop]
    simp only [advanceLoop, if_neg hstop]

/-- {lit}`BlockTracker::highest_fully_processed_block_count`: the count and the
reason it stopped, with the tracker storing the count. -/
def highestFullyProcessedBlockCount (t : BlockTracker K)
    (ingressKeys : List (IngressPublicKeyRecord K)) :
    (Nat × Option (IngressPublicKeyRecord K)) × BlockTracker K :=
  let result := t.advance ingressKeys t.highestKnownBlockCount t.lastHighestProcessedBlockCount
  (result, { t with lastHighestProcessedBlockCount := result.1 })

/-- The loop never moves the cursor back, stops at most at the highest known
count when started there or below, and reports no reason exactly when it
reaches that count. -/
theorem advance_spec (t : BlockTracker K) (ingressKeys : List (IngressPublicKeyRecord K))
    (hk : Nat) :
    ∀ last, last ≤ hk →
      last ≤ (t.advance ingressKeys hk last).1 ∧ (t.advance ingressKeys hk last).1 ≤ hk ∧
        ((t.advance ingressKeys hk last).2 = none ↔ (t.advance ingressKeys hk last).1 = hk) := by
  intro last hlast
  induction h : hk - last generalizing last with
  | zero =>
      have heq : last = hk := by omega
      subst heq
      rw [advance_eq, if_pos (Nat.lt_succ_self _)]
      simp
  | succ n ih =>
      rw [advance_eq, if_neg (by omega)]
      cases hblock : t.blockingRecord ingressKeys last with
      | some rec =>
          simp only
          refine ⟨le_refl _, hlast, ?_⟩
          simp only [reduceCtorEq, false_iff]
          omega
      | none =>
          simp only
          have hrest := ih (last + 1) (by omega) (by omega)
          exact ⟨by omega, hrest.2.1, hrest.2.2⟩

/-! ## The least stopping point -/

/-- A record waits on a block index when it covers the index and its key has
processed nothing or only blocks before it: the test of the inner loop of
{lit}`highest_fully_processed_block_count`. -/
def Waits (t : BlockTracker K) (rec : IngressPublicKeyRecord K) (n : Nat) : Prop :=
  rec.coversBlockIndex n = true ∧ ∀ last ∈ t.processedBlockPerIngressKey.lookup rec.key, last < n

instance (t : BlockTracker K) (rec : IngressPublicKeyRecord K) (n : Nat) :
    Decidable (t.Waits rec n) :=
  inferInstanceAs (Decidable (_ ∧ _))

/-- The inner loop looks for the first waiting record. -/
theorem blockingRecord_eq_find? (t : BlockTracker K)
    (ingressKeys : List (IngressPublicKeyRecord K)) (n : Nat) :
    t.blockingRecord ingressKeys n = ingressKeys.find? fun rec => decide (t.Waits rec n) := by
  unfold blockingRecord
  congr 1
  funext rec
  rw [Bool.eq_iff_iff, Bool.and_eq_true, decide_eq_true_eq]
  unfold Waits
  cases t.processedBlockPerIngressKey.lookup rec.key <;> simp

/-- No reason is reported exactly when no record of the list waits. -/
theorem blockingRecord_eq_none_iff (t : BlockTracker K)
    (ingressKeys : List (IngressPublicKeyRecord K)) (n : Nat) :
    t.blockingRecord ingressKeys n = none ↔ ∀ rec ∈ ingressKeys, ¬ t.Waits rec n := by
  rw [blockingRecord_eq_find?, List.find?_eq_none]
  simp only [decide_eq_true_eq]

/-- The reason reported is the first record of the list that waits. -/
theorem blockingRecord_eq_some_iff (t : BlockTracker K)
    (ingressKeys : List (IngressPublicKeyRecord K)) (n : Nat) (rec : IngressPublicKeyRecord K) :
    t.blockingRecord ingressKeys n = some rec ↔
      t.Waits rec n ∧ ∃ pre post, ingressKeys = pre ++ rec :: post ∧ ∀ r ∈ pre, ¬ t.Waits r n := by
  rw [blockingRecord_eq_find?, List.find?_eq_some_iff_append]
  simp only [decide_eq_true_eq, Bool.not_eq_eq_eq_not, Bool.not_true, decide_eq_false_iff_not]

/-- A record that covers a block and does not wait on it has processed that
block. -/
theorem exists_le_of_not_waits {t : BlockTracker K} {rec : IngressPublicKeyRecord K} {b : Nat}
    (hcov : rec.coversBlockIndex b = true) (h : ¬ t.Waits rec b) :
    ∃ last, t.processedBlockPerIngressKey.lookup rec.key = some last ∧ b ≤ last := by
  unfold Waits at h
  cases hlast : t.processedBlockPerIngressKey.lookup rec.key with
  | none => simp [hlast, hcov] at h
  | some last =>
      refine ⟨last, rfl, ?_⟩
      simp only [hlast, hcov, Option.mem_def, Option.some.injEq, forall_eq', true_and,
        not_lt] at h
      exact h

/-- The loop stops at the least cursor from {lean}`last` on that is at least
the highest known count, or at which some record waits; its reason is then
none, or the first waiting record. -/
theorem advance_least (t : BlockTracker K) (ingressKeys : List (IngressPublicKeyRecord K))
    (hk last : Nat) :
    ∃ c reason, t.advance ingressKeys hk last = (c, reason) ∧ last ≤ c ∧
      ((hk ≤ c ∧ reason = none) ∨
        (c < hk ∧ ∃ rec, reason = some rec ∧ t.blockingRecord ingressKeys c = some rec)) ∧
      ∀ n, last ≤ n → n < c → n < hk ∧ t.blockingRecord ingressKeys n = none := by
  induction h : hk - last generalizing last with
  | zero =>
      refine ⟨last, none, ?_, le_refl _, Or.inl ⟨by omega, rfl⟩,
        fun n h₁ h₂ => absurd h₂ (by omega)⟩
      rw [advance_eq, if_pos (by omega)]
  | succ m ih =>
      rw [advance_eq, if_neg (by omega)]
      cases hblock : t.blockingRecord ingressKeys last with
      | some rec =>
          exact ⟨last, some rec, rfl, le_refl _, Or.inr ⟨by omega, rec, rfl, hblock⟩,
            fun n h₁ h₂ => absurd h₂ (by omega)⟩
      | none =>
          obtain ⟨c, reason, hrun, hle, hstop, hbelow⟩ := ih (last + 1) (by omega)
          refine ⟨c, reason, hrun, by omega, hstop, fun n h₁ h₂ => ?_⟩
          rcases Nat.eq_or_lt_of_le h₁ with rfl | hlt
          · exact ⟨by omega, hblock⟩
          · exact hbelow n hlt h₂

/-- {lit}`highest_fully_processed_block_count` stores and returns the least
count from the previous one on at which the loop must stop: at the highest
known count with no reason, or below it at a block on which a record waits,
reporting the first such record of the list.  Every record covering a block
passed over has processed it. -/
theorem highestFullyProcessedBlockCount_eq_least_stop (t : BlockTracker K)
    (ingressKeys : List (IngressPublicKeyRecord K)) :
    ∃ c reason,
      t.highestFullyProcessedBlockCount ingressKeys =
          ((c, reason), { t with lastHighestProcessedBlockCount := c }) ∧
        t.lastHighestProcessedBlockCount ≤ c ∧
        ((t.highestKnownBlockCount ≤ c ∧ reason = none) ∨
          (c < t.highestKnownBlockCount ∧ ∃ rec pre post, reason = some rec ∧
            ingressKeys = pre ++ rec :: post ∧ t.Waits rec c ∧ ∀ r ∈ pre, ¬ t.Waits r c)) ∧
        (∀ n, t.lastHighestProcessedBlockCount ≤ n → n < c →
          n < t.highestKnownBlockCount ∧ ∀ rec ∈ ingressKeys, ¬ t.Waits rec n) ∧
        ∀ b, t.lastHighestProcessedBlockCount ≤ b → b < c → ∀ rec ∈ ingressKeys,
          rec.coversBlockIndex b = true →
            ∃ last, t.processedBlockPerIngressKey.lookup rec.key = some last ∧ b ≤ last := by
  obtain ⟨c, reason, hrun, hle, hstop, hbelow⟩ :=
    t.advance_least ingressKeys t.highestKnownBlockCount t.lastHighestProcessedBlockCount
  have hfree : ∀ n, t.lastHighestProcessedBlockCount ≤ n → n < c →
      n < t.highestKnownBlockCount ∧ ∀ rec ∈ ingressKeys, ¬ t.Waits rec n := by
    intro n h₁ h₂
    obtain ⟨hn, hnone⟩ := hbelow n h₁ h₂
    exact ⟨hn, (blockingRecord_eq_none_iff t ingressKeys n).1 hnone⟩
  refine ⟨c, reason, ?_, hle, ?_, hfree, ?_⟩
  · simp only [highestFullyProcessedBlockCount, hrun]
  · rcases hstop with hdone | ⟨hlt, rec, rfl, hrec⟩
    · exact Or.inl hdone
    · obtain ⟨hwaits, pre, post, hsplit, hpre⟩ :=
        (blockingRecord_eq_some_iff t ingressKeys c rec).1 hrec
      exact Or.inr ⟨hlt, rec, pre, post, rfl, hsplit, hwaits, hpre⟩
  · intro b h₁ h₂ rec hmem hcov
    exact exists_le_of_not_waits hcov ((hfree b h₁ h₂).2 rec hmem)

/-! ## No candidate, no blocking record -/

/-- A record whose key started at or before its processed block, and that
waits on some block, has a candidate: coverage is an interval from the start
block, so it also covers the block after its last one, or its start block. -/
theorem nextBlockFor_isSome_of_waits {t : BlockTracker K} {rec : IngressPublicKeyRecord K}
    {n : Nat}
    (hstart : ∀ last ∈ t.processedBlockPerIngressKey.lookup rec.key,
      rec.status.startBlock ≤ last)
    (hw : t.Waits rec n) : (t.nextBlockFor rec).isSome := by
  obtain ⟨hcov, hbefore⟩ := hw
  unfold nextBlockFor
  cases hlast : t.processedBlockPerIngressKey.lookup rec.key with
  | none =>
      have hcovStart : rec.coversBlockIndex rec.status.startBlock = true :=
        IngressPublicKeyRecord.coversBlockIndex_of_le hcov le_rfl
          (IngressPublicKeyRecord.startBlock_le_of_coversBlockIndex hcov)
      simp [hcovStart]
  | some last =>
      have hlt : last < n := hbefore last hlast
      have hle : rec.status.startBlock ≤ last := hstart last hlast
      have hcovNext : rec.coversBlockIndex (last + 1) = true :=
        IngressPublicKeyRecord.coversBlockIndex_of_le hcov (by omega) hlt
      simp [hcovNext]

/-- When no record of the list has a block left to load, and every record's
key started at or before its processed block, the count advances from a
bounded cursor to the highest known count with no reason. -/
theorem highestFullyProcessedBlockCount_of_nextBlocks_eq_empty {t : BlockTracker K}
    {ingressKeys : List (IngressPublicKeyRecord K)}
    (hbounded : t.lastHighestProcessedBlockCount ≤ t.highestKnownBlockCount)
    (hstart : ∀ rec ∈ ingressKeys, ∀ last ∈ t.processedBlockPerIngressKey.lookup rec.key,
      rec.status.startBlock ≤ last)
    (hempty : t.nextBlocks ingressKeys = ∅) :
    t.highestFullyProcessedBlockCount ingressKeys =
      ((t.highestKnownBlockCount, none),
        { t with lastHighestProcessedBlockCount := t.highestKnownBlockCount }) := by
  obtain ⟨c, reason, hrun, hle, hstop, hbelow⟩ :=
    t.advance_least ingressKeys t.highestKnownBlockCount t.lastHighestProcessedBlockCount
  rcases hstop with ⟨hknown, rfl⟩ | ⟨-, rec, -, hrec⟩
  · have hc : c = t.highestKnownBlockCount := by
      by_contra hne
      have := (hbelow t.highestKnownBlockCount hbounded (by omega)).1
      omega
    subst hc
    simp only [highestFullyProcessedBlockCount, hrun]
  · obtain ⟨hwaits, pre, post, hsplit, -⟩ := (blockingRecord_eq_some_iff t ingressKeys c rec).1 hrec
    have hmem : rec ∈ ingressKeys := by simp [hsplit]
    have hsome := lookup_nextBlocks_isSome hmem (nextBlockFor_isSome_of_waits (hstart rec hmem) hwaits)
    simp [hempty] at hsome

end BlockTracker

end View
end Fog
