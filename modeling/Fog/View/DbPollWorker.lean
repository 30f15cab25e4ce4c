import Fog.View.BlockTracker

/-!
# Runs of the block tracker and the view server's poll tick

Any interleaving of the three tracker calls is a run of the partial step
function {lit}`BlockTracker.call`; the poll thread of
`fog/view/server/src/server.rs` is a run of {lit}`DbPollThreadWorker.tick`.
The tick feeds fetched blocks into the enclave tracker, recomputes the highest
fully processed block count, and then asserts that a changed highest known
count moved forward before it queries the database for the block below it.

The database answers, the fetched records and the record lists are inputs of
each step, so the results hold for every answer the environment gives.  The
{lit}`Err` branch of {lit}`add_records` loops forever without returning, so a
tick that reaches it never completes; the ticks of a run are the completed
ones.  Timestamps, log lines and metrics are left out.

Main results:

- Theorem {lit}`BlockTracker.call_preserves`: every call keeps the cursor at
  most the highest known count and moves neither of them back.
- Theorem {lit}`BlockTracker.highestFullyProcessedBlockCount_eq_known_of_nextBlocks_empty`:
  in a tracker whose keys were first processed at their start blocks, nothing
  left to load means the count reaches the highest known count.
- Theorem {lit}`DbPollThreadWorker.tick_preserves`: the poll tick keeps the
  shared last known count at most the tracker's highest known count.
-/

namespace Fog
namespace View

open RecoveryDb Run

/-- One call a caller can make on a block tracker. -/
inductive TrackerCall (K : Type)
  | nextBlocks (ingressKeyRecords : List (IngressPublicKeyRecord K))
  | blockProcessed (ingressKey : K) (blockIndex : Nat)
  | highestFullyProcessedBlockCount (ingressKeys : List (IngressPublicKeyRecord K))
  | highestKnownBlockCount

namespace BlockTracker

variable {K : Type} [DecidableEq K]

/-- The state after a call; {lean}`none` only when {lit}`block_processed`
panics. -/
def call (t : BlockTracker K) : TrackerCall K → Option (BlockTracker K)
  | .nextBlocks _ => some t
  | .blockProcessed k b => t.blockProcessed k b
  | .highestFullyProcessedBlockCount recs => some (t.highestFullyProcessedBlockCount recs).2
  | .highestKnownBlockCount => some t

/-- The stored cursor never exceeds the highest known count. -/
def CursorBounded (t : BlockTracker K) : Prop :=
  t.lastHighestProcessedBlockCount ≤ t.highestKnownBlockCount

/-- Neither the highest known count nor the stored cursor moved back. -/
def Advanced (t t' : BlockTracker K) : Prop :=
  t.highestKnownBlockCount ≤ t'.highestKnownBlockCount ∧
    t.lastHighestProcessedBlockCount ≤ t'.lastHighestProcessedBlockCount

omit [DecidableEq K] in
/-- Every tracker is advanced from itself. -/
theorem advanced_refl (t : BlockTracker K) : Advanced t t :=
  ⟨le_refl _, le_refl _⟩

omit [DecidableEq K] in
/-- Advancing is transitive. -/
theorem advanced_trans (t₁ t₂ t₃ : BlockTracker K) (h₁₂ : Advanced t₁ t₂)
    (h₂₃ : Advanced t₂ t₃) : Advanced t₁ t₃ :=
  ⟨le_trans h₁₂.1 h₂₃.1, le_trans h₁₂.2 h₂₃.2⟩

/-- Computing the fully processed count leaves the map of processed blocks
alone. -/
@[simp]
theorem highestFullyProcessedBlockCount_tracker_map (t : BlockTracker K)
    (recs : List (IngressPublicKeyRecord K)) :
    (t.highestFullyProcessedBlockCount recs).2.processedBlockPerIngressKey =
      t.processedBlockPerIngressKey :=
  rfl

/-- Computing the fully processed count stores it as the cursor. -/
@[simp]
theorem highestFullyProcessedBlockCount_tracker_count (t : BlockTracker K)
    (recs : List (IngressPublicKeyRecord K)) :
    (t.highestFullyProcessedBlockCount recs).2.lastHighestProcessedBlockCount =
      (t.highestFullyProcessedBlockCount recs).1.1 :=
  rfl

/-- Computing the fully processed count leaves the highest known count alone. -/
@[simp]
theorem highestKnownBlockCount_highestFullyProcessedBlockCount (t : BlockTracker K)
    (recs : List (IngressPublicKeyRecord K)) :
    (t.highestFullyProcessedBlockCount recs).2.highestKnownBlockCount =
      t.highestKnownBlockCount :=
  rfl

/-- From a bounded cursor, the computed count lies between the old cursor and
the highest known count, and no reason is reported exactly when it reaches the
highest known count. -/
theorem highestFullyProcessedBlockCount_spec {t : BlockTracker K} (ht : t.CursorBounded)
    (recs : List (IngressPublicKeyRecord K)) :
    t.lastHighestProcessedBlockCount ≤ (t.highestFullyProcessedBlockCount recs).1.1 ∧
      (t.highestFullyProcessedBlockCount recs).1.1 ≤ t.highestKnownBlockCount ∧
      ((t.highestFullyProcessedBlockCount recs).1.2 = none ↔
        (t.highestFullyProcessedBlockCount recs).1.1 = t.highestKnownBlockCount) :=
  advance_spec t recs _ _ ht

/-- A processed block keeps the cursor bounded and moves nothing back. -/
theorem blockProcessed_preserves {t t' : BlockTracker K} {k : K} {b : Nat}
    (ht : t.CursorBounded) (h : t.blockProcessed k b = some t') :
    t'.CursorBounded ∧ Advanced t t' := by
  have hknown := highestKnownBlockCount_le_of_blockProcessed h
  have hcount := blockProcessed_lastHighestProcessedBlockCount h
  unfold CursorBounded at ht ⊢
  refine ⟨?_, hknown, ?_⟩
  · rw [hcount]
    exact le_trans ht hknown
  · rw [hcount]

/-- Step lemma: every tracker call keeps the cursor bounded and moves neither
the highest known count nor the cursor back. -/
theorem call_preserves {t t' : BlockTracker K} {c : TrackerCall K}
    (ht : t.CursorBounded) (h : t.call c = some t') :
    t'.CursorBounded ∧ Advanced t t' := by
  cases c with
  | nextBlocks recs =>
      cases h
      exact ⟨ht, advanced_refl t⟩
  | blockProcessed k b => exact blockProcessed_preserves ht h
  | highestFullyProcessedBlockCount recs =>
      cases h
      have hspec := highestFullyProcessedBlockCount_spec ht recs
      refine ⟨?_, ⟨le_refl _, ?_⟩⟩
      · unfold CursorBounded
        simpa using hspec.2.1
      · simpa using hspec.1
  | highestKnownBlockCount =>
      cases h
      exact ⟨ht, advanced_refl t⟩

omit [DecidableEq K] in
/-- The fresh tracker has a bounded cursor. -/
theorem new_cursorBounded : (new : BlockTracker K).CursorBounded := by
  simp [CursorBounded, new]

/-- Run lemma: along every run from a bounded state, the cursor stays bounded. -/
theorem cursorBounded_of_runSteps {t t' : BlockTracker K} {calls : List (TrackerCall K)}
    (ht : t.CursorBounded) (h : runSteps call t calls = some t') : t'.CursorBounded :=
  invariant_runSteps (fun _ _ _ hs hstep => (call_preserves hs hstep).1) ht h

/-- Run lemma: the two ends of every run from a bounded state are ordered. -/
theorem advanced_of_runSteps {t t' : BlockTracker K} {calls : List (TrackerCall K)}
    (ht : t.CursorBounded) (h : runSteps call t calls = some t') : Advanced t t' :=
  rel_runSteps advanced_refl advanced_trans (fun _ _ _ hs hstep => call_preserves hs hstep) ht h

/-! ## The first block processed with a key -/

/-- The block of the first {lit}`block_processed` call with this key in a
sequence of tracker calls. -/
def firstProcessed (k : K) : List (TrackerCall K) → Option Nat
  | [] => none
  | .blockProcessed k' b :: calls => if k' = k then some b else firstProcessed k calls
  | .nextBlocks _ :: calls => firstProcessed k calls
  | .highestFullyProcessedBlockCount _ :: calls => firstProcessed k calls
  | .highestKnownBlockCount :: calls => firstProcessed k calls

/-- A call that processes no block with the key leaves its first block alone. -/
theorem firstProcessed_cons_of_ne {k : K} {c : TrackerCall K}
    (hc : ∀ b, c ≠ .blockProcessed k b) (calls : List (TrackerCall K)) :
    firstProcessed k (c :: calls) = firstProcessed k calls := by
  cases c with
  | blockProcessed k' b =>
      have hk : k' ≠ k := by
        rintro rfl
        exact hc b rfl
      simp [firstProcessed, hk]
  | nextBlocks recs => rfl
  | highestFullyProcessedBlockCount recs => rfl
  | highestKnownBlockCount => rfl

/-- Step lemma: a call leaves the block of a key alone, unless it processes
that key, which then moves to the block after its last one or appears. -/
theorem call_lookup {t t' : BlockTracker K} {c : TrackerCall K} (h : t.call c = some t') (k : K) :
    ((∀ b, c ≠ .blockProcessed k b) ∧
        t'.processedBlockPerIngressKey.lookup k = t.processedBlockPerIngressKey.lookup k) ∨
      ∃ b, c = .blockProcessed k b ∧ t'.processedBlockPerIngressKey.lookup k = some b ∧
        ∀ prev, t.processedBlockPerIngressKey.lookup k = some prev → b = prev + 1 := by
  cases c with
  | blockProcessed k' b =>
      obtain ⟨hprev, rfl⟩ := blockProcessed_eq_some h
      by_cases hk : k' = k
      · subst hk
        exact Or.inr ⟨b, rfl, by simp, hprev⟩
      · refine Or.inl ⟨fun b' hc => hk (TrackerCall.blockProcessed.inj hc).1, ?_⟩
        simp [AList.lookup_insert_ne (Ne.symm hk)]
  | nextBlocks recs =>
      cases h
      exact Or.inl ⟨fun b hc => (by cases hc), rfl⟩
  | highestFullyProcessedBlockCount recs =>
      cases h
      exact Or.inl ⟨fun b hc => (by cases hc), rfl⟩
  | highestKnownBlockCount =>
      cases h
      exact Or.inl ⟨fun b hc => (by cases hc), rfl⟩

/-- Run lemma: a key that a run leaves in the tracker was there before the run
at or below its block now, or was first processed in the run at or below it. -/
theorem lookup_of_runSteps {k : K} :
    ∀ {calls : List (TrackerCall K)} {t₀ t : BlockTracker K} {x : Nat},
      runSteps call t₀ calls = some t → t.processedBlockPerIngressKey.lookup k = some x →
        (∃ x₀, t₀.processedBlockPerIngressKey.lookup k = some x₀ ∧ x₀ ≤ x) ∨
          (t₀.processedBlockPerIngressKey.lookup k = none ∧
            ∃ f, firstProcessed k calls = some f ∧ f ≤ x)
  | [], t₀, t, x, h, hx => by
      rw [runSteps_nil, Option.some.injEq] at h
      subst h
      exact Or.inl ⟨x, hx, le_refl x⟩
  | c :: calls, t₀, t, x, h, hx => by
      rw [runSteps_cons, Option.bind_eq_some_iff] at h
      obtain ⟨t₁, hcall, hrest⟩ := h
      have ih := lookup_of_runSteps hrest hx
      rcases call_lookup hcall k with ⟨hc, hsame⟩ | ⟨b, rfl, hb, hprev⟩
      · rw [hsame] at ih
        rw [firstProcessed_cons_of_ne hc]
        exact ih
      · have hbx : b ≤ x := by
          rcases ih with ⟨x₁, hx₁, hle⟩ | ⟨hnone, -⟩
          · rw [hb, Option.some.injEq] at hx₁
            rw [hx₁]
            exact hle
          · rw [hb] at hnone
            cases hnone
        cases hlast : t₀.processedBlockPerIngressKey.lookup k with
        | none => exact Or.inr ⟨rfl, b, by simp [firstProcessed], hbx⟩
        | some prev =>
            have hnext := hprev prev hlast
            exact Or.inl ⟨prev, rfl, by omega⟩

/-- When the fetcher has nothing left to load, no ingress key blocks the view
server: from any tracker reached by a run in which the first block processed
with every record's key was that record's start block, a record list with no
next block lets the count advance to the highest known count, with no
reason. -/
theorem highestFullyProcessedBlockCount_eq_known_of_nextBlocks_empty
    {calls : List (TrackerCall K)} {t : BlockTracker K}
    {ingressKeys : List (IngressPublicKeyRecord K)}
    (hrun : runSteps call new calls = some t)
    (hfirst : ∀ rec ∈ ingressKeys, ∀ b ∈ firstProcessed rec.key calls,
      b = rec.status.startBlock)
    (hempty : t.nextBlocks ingressKeys = ∅) :
    t.highestFullyProcessedBlockCount ingressKeys =
      ((t.highestKnownBlockCount, none),
        { t with lastHighestProcessedBlockCount := t.highestKnownBlockCount }) := by
  apply highestFullyProcessedBlockCount_of_nextBlocks_eq_empty
    (cursorBounded_of_runSteps new_cursorBounded hrun) _ hempty
  intro rec hmem last hlast
  rcases lookup_of_runSteps hrun hlast with ⟨x₀, hx₀, -⟩ | ⟨-, f, hf, hle⟩
  · simp [new] at hx₀
  · rw [← hfirst rec hmem f hf]
    exact hle

/-- A retired key processed from its start block up to the block before its
expiry: nothing is left to load, and the count reaches the expiry. -/
theorem highestFullyProcessedBlockCount_eq_known_of_nextBlocks_empty_retired :
    ∃ t, runSteps call (new : BlockTracker Nat)
          [.blockProcessed 1 10, .highestFullyProcessedBlockCount [], .blockProcessed 1 11] =
        some t ∧
      t.highestFullyProcessedBlockCount [⟨1, ⟨10, 12, true, false⟩, some 11⟩] =
        ((12, none), { t with lastHighestProcessedBlockCount := 12 }) := by
  refine ⟨_, rfl, ?_⟩
  exact @highestFullyProcessedBlockCount_eq_known_of_nextBlocks_empty Nat _
    [.blockProcessed 1 10, .highestFullyProcessedBlockCount [], .blockProcessed 1 11] _
    [⟨1, ⟨10, 12, true, false⟩, some 11⟩] rfl (by decide) rfl

end BlockTracker

/-! ## The poll tick -/

/-- The part of {lit}`DbPollSharedState` that the tick reads and writes. -/
structure DbPollSharedState where
  highestProcessedBlockCount : Nat
  lastKnownBlockCount : Nat
  lastKnownBlockCumulativeTxoCount : Nat
deriving DecidableEq, Repr

/-- The poll worker: its enclave block tracker and the shared state. -/
structure DbPollThreadWorker (K : Type) where
  enclaveBlockTracker : BlockTracker K
  sharedState : DbPollSharedState

/-- What the environment supplies to one tick: the fetched blocks the tick
gets through before a stop request (the whole queue if none), the record list
of the fetcher, and the answer of {lit}`get_cumulative_txo_count_for_block`. -/
structure TickInput (K : Type) where
  fetchedRecords : List (K × Nat)
  ingressKeys : List (IngressPublicKeyRecord K)
  cumulativeTxoCount : Except Unit (Option Nat)

/-- The ways a tick can panic. -/
inductive TickPanic
  /-- The assertion of {lit}`block_processed` in the enclave tracker. -/
  | blockProcessed
  /-- The assertion that a changed highest known count moved forward. -/
  | knownCountMovedBack
  /-- The subtraction {lit}`cur_highest_known_block_count - 1` underflows. -/
  | knownCountUnderflow
deriving DecidableEq, Repr

namespace DbPollThreadWorker

variable {K : Type} [DecidableEq K]

/-- A fresh worker as started by {lit}`DbPollThread::start`. -/
def new : DbPollThreadWorker K :=
  ⟨BlockTracker.new, ⟨0, 0, 0⟩⟩

/-- Feed the fetched blocks into the enclave tracker in order
({lit}`add_records_to_enclave`). -/
def addRecordsToEnclave (t : BlockTracker K) : List (K × Nat) → Option (BlockTracker K)
  | [] => some t
  | (k, b) :: rest => (t.blockProcessed k b).bind fun t' => addRecordsToEnclave t' rest

/-- Update the shared last known count from the database answer, after the
assertion and the subtraction. -/
def updateLastKnown (shared : DbPollSharedState) (cur : Nat)
    (answer : Except Unit (Option Nat)) : Except TickPanic DbPollSharedState :=
  if shared.lastKnownBlockCount ≠ cur then
    if ¬ cur > shared.lastKnownBlockCount then .error .knownCountMovedBack
    else if cur = 0 then .error .knownCountUnderflow
    else
      match answer with
      | .ok (some cumulativeTxoCount) =>
          .ok { shared with lastKnownBlockCount := cur,
                            lastKnownBlockCumulativeTxoCount := cumulativeTxoCount }
      | _ => .ok shared
  else .ok shared

/-- {lit}`DbPollThreadWorker::tick` when no stop was requested at its start. -/
def tick (w : DbPollThreadWorker K) (input : TickInput K) :
    Except TickPanic (DbPollThreadWorker K) :=
  match addRecordsToEnclave w.enclaveBlockTracker input.fetchedRecords with
  | none => .error .blockProcessed
  | some tracker =>
      let ((highestProcessedBlockCount, _), tracker') :=
        tracker.highestFullyProcessedBlockCount input.ingressKeys
      let shared := { w.sharedState with highestProcessedBlockCount := highestProcessedBlockCount }
      match updateLastKnown shared tracker'.highestKnownBlockCount input.cumulativeTxoCount with
      | .error e => .error e
      | .ok shared' => .ok ⟨tracker', shared'⟩

/-- A completed tick as a partial step. -/
def tickStep (w : DbPollThreadWorker K) (input : TickInput K) : Option (DbPollThreadWorker K) :=
  (w.tick input).toOption

/-- The worker invariant: the tracker's cursor is bounded, and the shared last
known count is at most the tracker's highest known count. -/
def Inv (w : DbPollThreadWorker K) : Prop :=
  w.enclaveBlockTracker.CursorBounded ∧
    w.sharedState.lastKnownBlockCount ≤ w.enclaveBlockTracker.highestKnownBlockCount

omit [DecidableEq K] in
/-- The fresh worker satisfies the invariant. -/
theorem new_inv : (new : DbPollThreadWorker K).Inv :=
  ⟨BlockTracker.new_cursorBounded, Nat.zero_le _⟩

/-- Feeding records is a run of tracker calls. -/
theorem addRecordsToEnclave_eq_runSteps (t : BlockTracker K) (recs : List (K × Nat)) :
    addRecordsToEnclave t recs =
      runSteps BlockTracker.call t (recs.map fun r => .blockProcessed r.1 r.2) := by
  induction recs generalizing t with
  | nil => rfl
  | cons r rest ih =>
      obtain ⟨k, b⟩ := r
      simp only [addRecordsToEnclave, List.map_cons, runSteps_cons, BlockTracker.call]
      cases t.blockProcessed k b with
      | none => rfl
      | some t' => exact ih t'

/-- From a bounded last known count, the update never panics, and the stored
count stays at most the current one. -/
theorem updateLastKnown_spec {shared : DbPollSharedState} {cur : Nat}
    (hle : shared.lastKnownBlockCount ≤ cur) (answer : Except Unit (Option Nat)) :
    ∃ shared', updateLastKnown shared cur answer = .ok shared' ∧
      shared'.lastKnownBlockCount ≤ cur ∧
      shared'.highestProcessedBlockCount = shared.highestProcessedBlockCount := by
  unfold updateLastKnown
  by_cases hne : shared.lastKnownBlockCount ≠ cur
  · have hlt : cur > shared.lastKnownBlockCount := by omega
    have hpos : cur ≠ 0 := by omega
    rw [if_pos hne, if_neg (not_not.2 hlt), if_neg hpos]
    cases answer with
    | error e => exact ⟨shared, rfl, hle, rfl⟩
    | ok count =>
        cases count with
        | none => exact ⟨shared, rfl, hle, rfl⟩
        | some c => exact ⟨_, rfl, le_refl _, rfl⟩
  · rw [if_neg hne]
    exact ⟨shared, rfl, hle, rfl⟩

/-- Step lemma: a tick from an invariant state that gets past the enclave
tracker never panics at the assertion or the subtraction, and keeps the
invariant. -/
theorem tick_preserves {w : DbPollThreadWorker K} (hw : w.Inv) (input : TickInput K)
    {tracker : BlockTracker K}
    (hadd : addRecordsToEnclave w.enclaveBlockTracker input.fetchedRecords = some tracker) :
    ∃ w', w.tick input = .ok w' ∧ w'.Inv := by
  rw [addRecordsToEnclave_eq_runSteps] at hadd
  have hbounded := BlockTracker.cursorBounded_of_runSteps hw.1 hadd
  have hknown := (BlockTracker.advanced_of_runSteps hw.1 hadd).1
  obtain ⟨hlow, hhigh, -⟩ :=
    BlockTracker.highestFullyProcessedBlockCount_spec hbounded input.ingressKeys
  have hshared : w.sharedState.lastKnownBlockCount ≤
      (tracker.highestFullyProcessedBlockCount input.ingressKeys).2.highestKnownBlockCount := by
    rw [BlockTracker.highestKnownBlockCount_highestFullyProcessedBlockCount]
    exact le_trans hw.2 hknown
  obtain ⟨shared', hupd, hle', -⟩ := @updateLastKnown_spec
    { w.sharedState with
      highestProcessedBlockCount := (tracker.highestFullyProcessedBlockCount input.ingressKeys).1.1 }
    _ hshared input.cumulativeTxoCount
  refine ⟨⟨(tracker.highestFullyProcessedBlockCount input.ingressKeys).2, shared'⟩, ?_, ?_, ?_⟩
  · unfold tick
    rw [← addRecordsToEnclave_eq_runSteps] at hadd
    rw [hadd]
    simp only
    rw [hupd]
  · unfold BlockTracker.CursorBounded
    simpa using hhigh
  · exact hle'

/-- A completed tick replays the fetched records into the enclave tracker and
stores the count computed from the result. -/
theorem tick_eq_ok {w w' : DbPollThreadWorker K} {input : TickInput K}
    (h : w.tick input = .ok w') :
    ∃ tracker, addRecordsToEnclave w.enclaveBlockTracker input.fetchedRecords = some tracker ∧
      w'.enclaveBlockTracker = (tracker.highestFullyProcessedBlockCount input.ingressKeys).2 := by
  unfold tick at h
  cases hadd : addRecordsToEnclave w.enclaveBlockTracker input.fetchedRecords with
  | none =>
      rw [hadd] at h
      cases h
  | some tracker =>
      rw [hadd] at h
      simp only at h
      split at h
      · cases h
      · cases h
        exact ⟨tracker, rfl, rfl⟩

/-- A tick fails only in the enclave tracker, never at the assertion. -/
theorem tick_eq_error {w : DbPollThreadWorker K} (hw : w.Inv) {input : TickInput K}
    {e : TickPanic} (h : w.tick input = .error e) : e = .blockProcessed := by
  cases hadd : addRecordsToEnclave w.enclaveBlockTracker input.fetchedRecords with
  | none =>
      unfold tick at h
      rw [hadd] at h
      exact (Except.error.inj h).symm
  | some tracker =>
      obtain ⟨w', hok, -⟩ := tick_preserves hw input hadd
      rw [hok] at h
      cases h

/-- Step lemma: a completed tick keeps the invariant. -/
theorem tickStep_preserves {w w' : DbPollThreadWorker K} {input : TickInput K}
    (hw : w.Inv) (hstep : tickStep w input = some w') : w'.Inv := by
  unfold tickStep at hstep
  cases htick : w.tick input with
  | error e =>
      rw [htick] at hstep
      cases hstep
  | ok w'' =>
      rw [htick] at hstep
      cases hstep
      cases hadd : addRecordsToEnclave w.enclaveBlockTracker input.fetchedRecords with
      | none =>
          unfold tick at htick
          rw [hadd] at htick
          cases htick
      | some tracker =>
          obtain ⟨w₁, hok, hinv⟩ := tick_preserves hw input hadd
          rw [hok] at htick
          cases htick
          exact hinv

/-- Run lemma: every worker reached by completed ticks satisfies the
invariant. -/
theorem inv_of_runSteps {w : DbPollThreadWorker K} {inputs : List (TickInput K)}
    (h : runSteps tickStep new inputs = some w) : w.Inv := by
  have hpres : ∀ (w : DbPollThreadWorker K) (input : TickInput K) (w' : DbPollThreadWorker K),
      w.Inv → tickStep w input = some w' → w'.Inv :=
    fun _ _ _ hw hstep => tickStep_preserves hw hstep
  exact invariant_runSteps hpres new_inv h

end DbPollThreadWorker

/-! ## Runs of the tracker and of the poll thread -/

section Runs

variable {K : Type} [DecidableEq K]

/-- Along every run of a block tracker, the highest known count and the stored
cursor never decrease and the cursor never exceeds the highest known count;
every {lit}`highest_fully_processed_block_count` reports no reason exactly when
its count is the highest known count; and every poll tick that fails, fails in
{lit}`block_processed`, never at the forward-moving assertion or the
subtraction after it. -/
theorem blockTracker_counts_monotone_and_tick_assertion_holds :
    (∀ (calls₁ calls₂ : List (TrackerCall K)) (t t' : BlockTracker K),
        runSteps BlockTracker.call BlockTracker.new calls₁ = some t →
        runSteps BlockTracker.call t calls₂ = some t' →
        t.highestKnownBlockCount ≤ t'.highestKnownBlockCount ∧
          t.lastHighestProcessedBlockCount ≤ t'.lastHighestProcessedBlockCount ∧
          t'.lastHighestProcessedBlockCount ≤ t'.highestKnownBlockCount) ∧
    (∀ (calls : List (TrackerCall K)) (t : BlockTracker K)
        (recs : List (IngressPublicKeyRecord K)),
        runSteps BlockTracker.call BlockTracker.new calls = some t →
        ((t.highestFullyProcessedBlockCount recs).1.2 = none ↔
          (t.highestFullyProcessedBlockCount recs).1.1 = t.highestKnownBlockCount)) ∧
    (∀ (inputs : List (TickInput K)) (w : DbPollThreadWorker K) (input : TickInput K)
        (e : TickPanic),
        runSteps DbPollThreadWorker.tickStep DbPollThreadWorker.new inputs = some w →
        w.tick input = .error e → e = .blockProcessed) := by
  refine ⟨?_, ?_, ?_⟩
  · intro calls₁ calls₂ t t' hrun₁ hrun₂
    have ht := BlockTracker.cursorBounded_of_runSteps BlockTracker.new_cursorBounded hrun₁
    have hadv := BlockTracker.advanced_of_runSteps ht hrun₂
    exact ⟨hadv.1, hadv.2, BlockTracker.cursorBounded_of_runSteps ht hrun₂⟩
  · intro calls t recs hrun
    have ht := BlockTracker.cursorBounded_of_runSteps BlockTracker.new_cursorBounded hrun
    exact (BlockTracker.highestFullyProcessedBlockCount_spec ht recs).2.2
  · intro inputs w input e hrun htick
    exact DbPollThreadWorker.tick_eq_error (DbPollThreadWorker.inv_of_runSteps hrun) htick

end Runs

end View
end Fog
