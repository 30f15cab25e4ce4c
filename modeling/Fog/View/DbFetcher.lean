import Fog.View.DbPollWorker

/-!
# The view server's two-tracker pipeline

The database fetcher thread of `fog/view/server/src/db_fetcher.rs` keeps its
own {lit}`BlockTracker`: it asks it for the next block of every key, loads
the blocks the database has, marks them processed and queues them.  The poll
thread of `server.rs` drains the queue and replays it, in order, into the
enclave tracker.  This module models the two threads as one system whose
steps are the fetcher's two loads and the poll thread's tick, and proves that
the two trackers stay in step.

The fetcher iterates over the next-blocks map in the association list's order.
The source's {lit}`HashMap` has an unspecified order; no result below relates
the entries of two different keys, so the order only decides how blocks of
distinct keys interleave in the queue.  The byte payloads of the queued
records, and the bound on the queue's size (which only blocks the fetcher until
the queue is drained), are left out.  The two logs of processed blocks are
history fields: they record every {lit}`block_processed` call each tracker
received and are read by no step.

Main results:

- Theorem {lit}`replay_spec`: replaying a log whose blocks of every key are
  consecutive from the key's start block never panics, and leaves every key at
  its last block.
- Theorem {lit}`ViewPipeline.step_preserves`: every step keeps both trackers
  equal to the replay of their logs, the fetcher log consecutive per key, and
  the enclave log a prefix of it.
-/

namespace Fog
namespace View

open RecoveryDb Run

variable {K : Type} [DecidableEq K]

/-! ## Logs of processed blocks -/

/-- The blocks of one key in a log of processed blocks, in order. -/
def blocksOf (k : K) (log : List (K × Nat)) : List Nat :=
  log.filterMap fun e => if e.1 = k then some e.2 else none

/-- The empty log has no block of any key. -/
@[simp]
theorem blocksOf_nil (k : K) : blocksOf k ([] : List (K × Nat)) = [] :=
  rfl

/-- The blocks of a key in two logs are those of each, in order. -/
@[simp]
theorem blocksOf_append (k : K) (l₁ l₂ : List (K × Nat)) :
    blocksOf k (l₁ ++ l₂) = blocksOf k l₁ ++ blocksOf k l₂ := by
  simp [blocksOf]

/-- One entry of the key gives its block. -/
@[simp]
theorem blocksOf_singleton_self (k : K) (b : Nat) : blocksOf k [(k, b)] = [b] := by
  simp [blocksOf]

/-- One entry of another key gives no block. -/
theorem blocksOf_singleton_of_ne {k k' : K} (b : Nat) (h : k' ≠ k) :
    blocksOf k [(k', b)] = [] := by
  simp [blocksOf, h]

/-- An entry is in the log exactly when its block is among its key's blocks. -/
theorem mem_iff_mem_blocksOf (k : K) (b : Nat) (log : List (K × Nat)) :
    (k, b) ∈ log ↔ b ∈ blocksOf k log := by
  unfold blocksOf
  rw [List.mem_filterMap]
  constructor
  · intro h
    exact ⟨(k, b), h, by simp⟩
  · rintro ⟨⟨k', b'⟩, hmem, hsome⟩
    by_cases hk : k' = k
    · subst hk
      simp only [if_true, Option.some.injEq] at hsome
      subst hsome
      exact hmem
    · simp [hk] at hsome

/-- Every key's blocks in the log are consecutive from the key's start block. -/
def Contiguous (startBlock : K → Nat) (log : List (K × Nat)) : Prop :=
  ∀ k, ∃ n, blocksOf k log = List.range' (startBlock k) n

/-- A prefix of a consecutive log is consecutive. -/
theorem Contiguous.of_prefix {startBlock : K → Nat} {l₁ l₂ : List (K × Nat)}
    (h : Contiguous startBlock l₂) (hpre : l₁ <+: l₂) : Contiguous startBlock l₁ := by
  intro k
  obtain ⟨n, hn⟩ := h k
  have hblocks : blocksOf k l₁ <+: List.range' (startBlock k) n := by
    rw [← hn]
    exact hpre.filterMap _
  have hlen : (blocksOf k l₁).length ≤ n := by
    simpa using hblocks.length_le
  refine ⟨(blocksOf k l₁).length, ?_⟩
  conv_lhs => rw [List.prefix_iff_eq_take.1 hblocks]
  exact List.take_range'_of_length_ge hlen

/-- In a consecutive log, a key's processed blocks are exactly those from its
start block up to its last one. -/
theorem mem_iff_of_contiguous {startBlock : K → Nat} {log : List (K × Nat)}
    (h : Contiguous startBlock log) (k : K) (b : Nat) :
    (k, b) ∈ log ↔
      ∃ p, (blocksOf k log).getLast? = some p ∧ startBlock k ≤ b ∧ b ≤ p := by
  obtain ⟨n, hn⟩ := h k
  rw [mem_iff_mem_blocksOf, hn, List.getLast?_range', List.mem_range'_1]
  by_cases hzero : n = 0
  · simp [hzero]
  · simp only [hzero, if_false, Option.some.injEq, exists_eq_left']
    omega

/-- A key's last block in a prefix of a consecutive log is at most its last
block in the whole log. -/
theorem Contiguous.getLast?_le_of_prefix {startBlock : K → Nat} {l₁ l₂ : List (K × Nat)}
    (h : Contiguous startBlock l₂) (hpre : l₁ <+: l₂) (k : K) {e : Nat}
    (he : (blocksOf k l₁).getLast? = some e) :
    ∃ f, (blocksOf k l₂).getLast? = some f ∧ e ≤ f := by
  have hmem : (k, e) ∈ l₂ :=
    hpre.subset ((mem_iff_mem_blocksOf k e l₁).2 (List.mem_of_getLast? he))
  obtain ⟨f, hf, -, hle⟩ := (mem_iff_of_contiguous h k e).1 hmem
  exact ⟨f, hf, hle⟩

/-! ## Replaying a log into a tracker -/

/-- Replaying a log whose every key continues consecutively from where the
tracker left it never panics, and leaves every key at its last block.  This is
the step lemma of both trackers: the fetcher extends its log one block at a
time, and the enclave replays a prefix of the same log. -/
theorem replay_spec {startBlock : K → Nat} :
    ∀ (log : List (K × Nat)) (done : List (K × Nat)) (t : BlockTracker K),
      (∀ k, t.processedBlockPerIngressKey.lookup k = (blocksOf k done).getLast?) →
      Contiguous startBlock (done ++ log) →
      ∃ t', DbPollThreadWorker.addRecordsToEnclave t log = some t' ∧
        t'.lastHighestProcessedBlockCount = t.lastHighestProcessedBlockCount ∧
        ∀ k, t'.processedBlockPerIngressKey.lookup k = (blocksOf k (done ++ log)).getLast?
  | [], done, t, hlookup, _ => ⟨t, rfl, rfl, by simpa using hlookup⟩
  | (k, b) :: rest, done, t, hlookup, hcont => by
      have hcont₁ : Contiguous startBlock (done ++ [(k, b)]) :=
        hcont.of_prefix (by simp)
      obtain ⟨n, hn⟩ := hcont.of_prefix (List.prefix_append done ((k, b) :: rest)) k
      obtain ⟨m, hm⟩ := hcont₁ k
      rw [blocksOf_append, blocksOf_singleton_self, hn] at hm
      have hlen : m = n + 1 := by
        have := congrArg List.length hm
        simp at this
        omega
      subst hlen
      rw [List.range'_concat, List.append_cancel_left_eq] at hm
      have hb : b = startBlock k + n := by
        simp only [List.cons.injEq, and_true] at hm
        omega
      obtain ⟨t₁, hstep⟩ : ∃ t₁, t.blockProcessed k b = some t₁ := by
        cases hproc : t.blockProcessed k b with
        | some t₁ => exact ⟨t₁, rfl⟩
        | none =>
            obtain ⟨prev, hprev, hne⟩ := (BlockTracker.blockProcessed_eq_none_iff t k b).1 hproc
            rw [hlookup k, hn, List.getLast?_range'] at hprev
            split at hprev
            · cases hprev
            · rw [Option.some.injEq] at hprev
              omega
      obtain ⟨-, rfl⟩ := BlockTracker.blockProcessed_eq_some hstep
      have hlookup₁ : ∀ k', AList.lookup k' (t.processedBlockPerIngressKey.insert k b) =
          (blocksOf k' (done ++ [(k, b)])).getLast? := by
        intro k'
        by_cases hk : k' = k
        · subst hk
          simp
        · rw [AList.lookup_insert_ne hk, hlookup k', blocksOf_append,
            blocksOf_singleton_of_ne b (Ne.symm hk), List.append_nil]
      obtain ⟨t', hrest, hcount, hfinal⟩ :=
        replay_spec rest (done ++ [(k, b)])
          { t with processedBlockPerIngressKey := t.processedBlockPerIngressKey.insert k b }
          hlookup₁ (by simpa using hcont)
      refine ⟨t', ?_, hcount, by simpa using hfinal⟩
      simp only [DbPollThreadWorker.addRecordsToEnclave, hstep, Option.bind_some]
      exact hrest

/-! ## The fetcher thread -/

/-- The database's answer to {lit}`get_tx_outs_by_block_and_key`. -/
inductive FetchAnswer
  | found
  | notFound
  | error
deriving DecidableEq, Repr

/-- The fetcher thread's tracker and the part of {lit}`DbFetcherSharedState`
it writes. -/
structure DbFetcherThread (K : Type) where
  blockTracker : BlockTracker K
  ingressKeys : List (IngressPublicKeyRecord K)
  fetchedRecords : List (K × Nat)

namespace DbFetcherThread

/-- A fresh fetcher thread. -/
def new : DbFetcherThread K :=
  ⟨BlockTracker.new, [], []⟩

/-- {lit}`load_ingress_keys`: keep the old list when the query fails. -/
def loadIngressKeys (s : DbFetcherThread K)
    (result : Except Unit (List (IngressPublicKeyRecord K))) : DbFetcherThread K :=
  match result with
  | .ok records => { s with ingressKeys := records }
  | .error _ => s

/-- One iteration of {lit}`load_block_data`: a found block is marked processed
and queued; a miss or an error leaves everything as it was. -/
def loadBlock (answer : K → Nat → FetchAnswer) (s : DbFetcherThread K) (entry : K × Nat) :
    Option (DbFetcherThread K) :=
  match answer entry.1 entry.2 with
  | .found =>
      (s.blockTracker.blockProcessed entry.1 entry.2).map fun t =>
        { s with blockTracker := t, fetchedRecords := s.fetchedRecords ++ [entry] }
  | .notFound => some s
  | .error => some s

/-- A block the database does not return leaves the fetcher as it is. -/
theorem loadBlock_of_ne_found {answer : K → Nat → FetchAnswer} {entry : K × Nat}
    (h : answer entry.1 entry.2 ≠ .found) (s : DbFetcherThread K) :
    loadBlock answer s entry = some s := by
  unfold loadBlock
  split
  · contradiction
  · rfl
  · rfl

/-- The next block of every key, as pairs in iteration order. -/
def nextEntries (s : DbFetcherThread K) : List (K × Nat) :=
  (s.blockTracker.nextBlocks s.ingressKeys).entries.map fun e => (e.1, e.2)

/-- {lit}`load_block_data`; {lean}`none` is a panic of {lit}`block_processed`. -/
def loadBlockData (s : DbFetcherThread K) (answer : K → Nat → FetchAnswer) :
    Option (DbFetcherThread K) :=
  runSteps (loadBlock answer) s s.nextEntries

end DbFetcherThread

/-! ## The joined system -/

/-- The fetcher, the poll worker, whether the poll thread has ended, and the
history of blocks processed by each tracker. -/
structure ViewPipeline (K : Type) where
  fetcher : DbFetcherThread K
  worker : DbPollThreadWorker K
  stopped : Bool
  fetcherLog : List (K × Nat)
  enclaveLog : List (K × Nat)

/-- One step of either thread. -/
inductive PipelineStep (K : Type)
  | loadIngressKeys (result : Except Unit (List (IngressPublicKeyRecord K)))
  | loadBlockData (answer : K → Nat → FetchAnswer)
  /-- A poll tick; {lit}`processed` is where a stop request interrupted the
  loop over the drained queue (after which the thread ends), {lean}`none` if
  it did not. -/
  | tick (cumulativeTxoCount : Except Unit (Option Nat)) (processed : Option Nat)

/-- The record lists the database returns keep every key at its fixed start
block. -/
def PipelineStep.Valid (startBlock : K → Nat) : PipelineStep K → Prop
  | .loadIngressKeys (.ok records) => ∀ rec ∈ records, rec.status.startBlock = startBlock rec.key
  | _ => True

namespace ViewPipeline

/-- Both threads freshly started. -/
def new : ViewPipeline K :=
  ⟨DbFetcherThread.new, DbPollThreadWorker.new, false, [], []⟩

/-- The blocks a tick drains and gets through before a stop request. -/
def handled (queue : List (K × Nat)) : Option Nat → List (K × Nat)
  | none => queue
  | some n => queue.take n

/-- One step of the joined system; {lean}`none` is a panic. -/
def step (s : ViewPipeline K) : PipelineStep K → Option (ViewPipeline K)
  | .loadIngressKeys result => some { s with fetcher := s.fetcher.loadIngressKeys result }
  | .loadBlockData answer =>
      (s.fetcher.loadBlockData answer).map fun f =>
        { s with fetcher := f,
                 fetcherLog := s.fetcherLog ++ f.fetchedRecords.drop s.fetcher.fetchedRecords.length }
  | .tick cumulativeTxoCount processed =>
      if s.stopped then some s
      else
        let batch := handled s.fetcher.fetchedRecords processed
        match s.worker.tick ⟨batch, s.fetcher.ingressKeys, cumulativeTxoCount⟩ with
        | .error _ => none
        | .ok w =>
            some { s with fetcher := { s.fetcher with fetchedRecords := [] },
                          worker := w,
                          stopped := processed.isSome,
                          enclaveLog := s.enclaveLog ++ batch }

end ViewPipeline

/-! ## The fetcher's loop -/

/-- The next block of a record depends on the tracker only through the record's
key. -/
theorem BlockTracker.nextBlockFor_congr {t t' : BlockTracker K} {rec : IngressPublicKeyRecord K}
    (h : t.processedBlockPerIngressKey.lookup rec.key = t'.processedBlockPerIngressKey.lookup rec.key) :
    t.nextBlockFor rec = t'.nextBlockFor rec := by
  unfold BlockTracker.nextBlockFor
  rw [h]

/-- Appending a record's next block to a consecutive log keeps it consecutive,
when the tracker sits at the log's last block of every key and the record
carries its key's start block. -/
theorem contiguous_append_nextBlockFor {startBlock : K → Nat} {log : List (K × Nat)}
    {t : BlockTracker K} {rec : IngressPublicKeyRecord K} {b : Nat}
    (hcont : Contiguous startBlock log)
    (hlookup : ∀ k, t.processedBlockPerIngressKey.lookup k = (blocksOf k log).getLast?)
    (hstart : rec.status.startBlock = startBlock rec.key) (hnext : t.nextBlockFor rec = some b) :
    Contiguous startBlock (log ++ [(rec.key, b)]) := by
  intro k
  obtain ⟨n, hn⟩ := hcont k
  by_cases hk : rec.key = k
  · subst hk
    have hb : b = startBlock rec.key + n := by
      unfold BlockTracker.nextBlockFor at hnext
      rw [hlookup, hn, List.getLast?_range'] at hnext
      by_cases hzero : n = 0
      · subst hzero
        simp only [if_true] at hnext
        split at hnext
        · rw [Option.some.injEq] at hnext
          omega
        · cases hnext
      · simp only [hzero, if_false] at hnext
        split at hnext
        · rw [Option.some.injEq] at hnext
          omega
        · cases hnext
    refine ⟨n + 1, ?_⟩
    rw [blocksOf_append, blocksOf_singleton_self, hn, List.range'_concat, hb]
    simp
  · exact ⟨n, by rw [blocksOf_append, blocksOf_singleton_of_ne b hk, List.append_nil, hn]⟩

/-- The loop of {lit}`load_block_data` over entries whose keys are distinct and
whose blocks are their records' next blocks: it never panics, only appends to
the queue, and extends a consecutive log of the fetcher's blocks by exactly the
blocks it queued. -/
theorem loadBlock_run_spec {startBlock : K → Nat} (answer : K → Nat → FetchAnswer) :
    ∀ (entries : List (K × Nat)) (s : DbFetcherThread K) (log : List (K × Nat)),
      (entries.map Prod.fst).Nodup →
      (∀ e ∈ entries, ∃ rec : IngressPublicKeyRecord K, rec.key = e.1 ∧
        rec.status.startBlock = startBlock e.1 ∧ s.blockTracker.nextBlockFor rec = some e.2) →
      (∀ k, s.blockTracker.processedBlockPerIngressKey.lookup k = (blocksOf k log).getLast?) →
      Contiguous startBlock log →
      ∃ s' added, runSteps (DbFetcherThread.loadBlock answer) s entries = some s' ∧
        s'.fetchedRecords = s.fetchedRecords ++ added ∧ s'.ingressKeys = s.ingressKeys ∧
        (∀ k, s'.blockTracker.processedBlockPerIngressKey.lookup k =
          (blocksOf k (log ++ added)).getLast?) ∧
        Contiguous startBlock (log ++ added)
  | [], s, log, _, _, hlookup, hcont => ⟨s, [], rfl, by simp, rfl, by simpa using hlookup, by simpa using hcont⟩
  | (k, b) :: rest, s, log, hnodup, hentries, hlookup, hcont => by
      obtain ⟨rec, hkey, hstart, hnext⟩ := hentries (k, b) List.mem_cons_self
      have hknot : k ∉ rest.map Prod.fst := (List.nodup_cons.1 hnodup).1
      have hrest : ∀ (t : BlockTracker K),
          (∀ k', k' ≠ k → t.processedBlockPerIngressKey.lookup k' =
            s.blockTracker.processedBlockPerIngressKey.lookup k') →
          ∀ e ∈ rest, ∃ rec : IngressPublicKeyRecord K, rec.key = e.1 ∧
            rec.status.startBlock = startBlock e.1 ∧ t.nextBlockFor rec = some e.2 := by
        intro t hframe e he
        obtain ⟨r, hr, hrs, hrn⟩ := hentries e (List.mem_cons_of_mem _ he)
        have hne : r.key ≠ k := by
          rw [hr]
          intro heq
          exact hknot (heq ▸ List.mem_map_of_mem he)
        exact ⟨r, hr, hrs, by rw [BlockTracker.nextBlockFor_congr (hframe r.key hne)]; exact hrn⟩
      by_cases hans : answer k b = .found
      · subst hkey
        have hcont₁ := contiguous_append_nextBlockFor hcont hlookup hstart hnext
        obtain ⟨t₁, hadd, -, hlookup₁⟩ :=
          replay_spec [(rec.key, b)] log s.blockTracker hlookup hcont₁
        have hproc : s.blockTracker.blockProcessed rec.key b = some t₁ := by
          simpa [DbPollThreadWorker.addRecordsToEnclave] using hadd
        obtain ⟨-, ht₁⟩ := BlockTracker.blockProcessed_eq_some hproc
        have hframe : ∀ k', k' ≠ rec.key → t₁.processedBlockPerIngressKey.lookup k' =
            s.blockTracker.processedBlockPerIngressKey.lookup k' := by
          intro k' hk'
          rw [ht₁]
          exact AList.lookup_insert_ne hk'
        obtain ⟨s', added, hrun, hqueue, hkeys, hlookup', hcont'⟩ :=
          loadBlock_run_spec answer rest
            { s with blockTracker := t₁, fetchedRecords := s.fetchedRecords ++ [(rec.key, b)] }
            (log ++ [(rec.key, b)]) (List.nodup_cons.1 hnodup).2 (hrest t₁ hframe) hlookup₁ hcont₁
        refine ⟨s', (rec.key, b) :: added, ?_, by simpa using hqueue, hkeys, ?_, ?_⟩
        · simp only [runSteps_cons, DbFetcherThread.loadBlock, hans, hproc, Option.map_some,
            Option.bind_some]
          exact hrun
        · simpa using hlookup'
        · simpa using hcont'
      · obtain ⟨s', added, hrun, hqueue, hkeys, hlookup', hcont'⟩ :=
          loadBlock_run_spec answer rest s log (List.nodup_cons.1 hnodup).2
            (hrest s.blockTracker (fun _ _ => rfl)) hlookup hcont
        refine ⟨s', added, ?_, hqueue, hkeys, hlookup', hcont'⟩
        rw [runSteps_cons, DbFetcherThread.loadBlock_of_ne_found hans, Option.bind_some]
        exact hrun

/-- Every entry the fetcher iterates over is the next block of a record it
holds, and the entries have distinct keys. -/
theorem DbFetcherThread.nextEntries_spec (s : DbFetcherThread K) :
    (s.nextEntries.map Prod.fst).Nodup ∧
      ∀ e ∈ s.nextEntries, ∃ rec ∈ s.ingressKeys, rec.key = e.1 ∧
        s.blockTracker.nextBlockFor rec = some e.2 := by
  unfold DbFetcherThread.nextEntries
  constructor
  · rw [List.map_map]
    exact (s.blockTracker.nextBlocks s.ingressKeys).nodupKeys
  · intro e he
    rw [List.mem_map] at he
    obtain ⟨⟨k, b⟩, hmem, rfl⟩ := he
    exact BlockTracker.exists_of_lookup_nextBlocks (AList.mem_lookup_iff.2 hmem)

/-! ## The pipeline invariant -/

namespace ViewPipeline

/-- Both trackers sit at the last block of every key in their logs, the
fetcher log is consecutive per key from the fixed start blocks, the enclave log
is a prefix of it, and while the poll thread runs the queue is exactly the
rest of the fetcher log. -/
structure Inv (startBlock : K → Nat) (s : ViewPipeline K) : Prop where
  records_valid : ∀ rec ∈ s.fetcher.ingressKeys, rec.status.startBlock = startBlock rec.key
  fetcher_lookup : ∀ k, s.fetcher.blockTracker.processedBlockPerIngressKey.lookup k =
    (blocksOf k s.fetcherLog).getLast?
  fetcher_contiguous : Contiguous startBlock s.fetcherLog
  enclave_lookup : ∀ k, s.worker.enclaveBlockTracker.processedBlockPerIngressKey.lookup k =
    (blocksOf k s.enclaveLog).getLast?
  enclave_prefix : s.enclaveLog <+: s.fetcherLog
  queue : s.stopped = false → s.enclaveLog ++ s.fetcher.fetchedRecords = s.fetcherLog
  worker : s.worker.Inv

/-- The fresh pipeline satisfies the invariant from every start block. -/
theorem new_inv (startBlock : K → Nat) : (new : ViewPipeline K).Inv startBlock where
  records_valid := by simp [new, DbFetcherThread.new]
  fetcher_lookup := by simp [new, DbFetcherThread.new, BlockTracker.new]
  fetcher_contiguous := fun k => ⟨0, rfl⟩
  enclave_lookup := by simp [new, DbPollThreadWorker.new, BlockTracker.new]
  enclave_prefix := List.prefix_rfl
  queue := fun _ => rfl
  worker := DbPollThreadWorker.new_inv

/-- Step lemma for the fetcher's reload of the record list. -/
theorem loadIngressKeys_preserves {startBlock : K → Nat} {s : ViewPipeline K}
    (hs : s.Inv startBlock) (result : Except Unit (List (IngressPublicKeyRecord K)))
    (hvalid : (PipelineStep.loadIngressKeys result).Valid startBlock) :
    ∃ s', step s (.loadIngressKeys result) = some s' ∧ s'.Inv startBlock := by
  refine ⟨_, rfl, ?_⟩
  cases result with
  | error e => exact hs
  | ok records =>
      exact { hs with records_valid := hvalid }

/-- Step lemma for {lit}`load_block_data`: it never panics, and the blocks it
queues extend the fetcher log consecutively. -/
theorem loadBlockData_preserves {startBlock : K → Nat} {s : ViewPipeline K}
    (hs : s.Inv startBlock) (answer : K → Nat → FetchAnswer) :
    ∃ s', step s (.loadBlockData answer) = some s' ∧ s'.Inv startBlock := by
  obtain ⟨hnodup, hentries⟩ := s.fetcher.nextEntries_spec
  have hentries' : ∀ e ∈ s.fetcher.nextEntries, ∃ rec : IngressPublicKeyRecord K, rec.key = e.1 ∧
      rec.status.startBlock = startBlock e.1 ∧ s.fetcher.blockTracker.nextBlockFor rec = some e.2 := by
    intro e he
    obtain ⟨rec, hmem, hkey, hnext⟩ := hentries e he
    exact ⟨rec, hkey, hkey ▸ hs.records_valid rec hmem, hnext⟩
  obtain ⟨f, added, hrun, hqueue, hkeys, hlookup, hcont⟩ :=
    loadBlock_run_spec answer s.fetcher.nextEntries s.fetcher s.fetcherLog hnodup hentries'
      hs.fetcher_lookup hs.fetcher_contiguous
  have hdrop : f.fetchedRecords.drop s.fetcher.fetchedRecords.length = added := by
    rw [hqueue, List.drop_left]
  refine ⟨{ s with fetcher := f, fetcherLog := s.fetcherLog ++ added }, ?_, ?_⟩
  · simp only [step, DbFetcherThread.loadBlockData, hrun, Option.map_some, hdrop]
  · refine ⟨?_, hlookup, hcont, hs.enclave_lookup, ?_, ?_, hs.worker⟩
    · rw [hkeys]
      exact hs.records_valid
    · exact hs.enclave_prefix.trans (List.prefix_append _ _)
    · intro hrun'
      rw [hqueue, ← List.append_assoc, hs.queue hrun']

/-- Step lemma for the poll tick: the drained blocks replay into the enclave
tracker without a panic, and the enclave log stays a prefix of the fetcher
log. -/
theorem tick_preserves {startBlock : K → Nat} {s : ViewPipeline K}
    (hs : s.Inv startBlock) (cumulativeTxoCount : Except Unit (Option Nat))
    (processed : Option Nat) :
    ∃ s', step s (.tick cumulativeTxoCount processed) = some s' ∧ s'.Inv startBlock := by
  cases hstop : s.stopped with
  | true => exact ⟨s, by simp [step, hstop], hs⟩
  | false =>
      have hqueue := hs.queue hstop
      set batch := handled s.fetcher.fetchedRecords processed with hbatch
      have hbatch_prefix : batch <+: s.fetcher.fetchedRecords := by
        cases processed with
        | none => exact List.prefix_rfl
        | some n => exact List.take_prefix n _
      have hprefix : s.enclaveLog ++ batch <+: s.fetcherLog := by
        rw [← hqueue]
        exact (List.prefix_append_right_inj s.enclaveLog).2 hbatch_prefix
      obtain ⟨tracker, hadd, -, hlookup⟩ :=
        replay_spec batch s.enclaveLog s.worker.enclaveBlockTracker hs.enclave_lookup
          (hs.fetcher_contiguous.of_prefix hprefix)
      obtain ⟨w, htick, hw⟩ := DbPollThreadWorker.tick_preserves hs.worker
        ⟨batch, s.fetcher.ingressKeys, cumulativeTxoCount⟩ hadd
      obtain ⟨tracker', hadd', hw'⟩ := DbPollThreadWorker.tick_eq_ok htick
      rw [hadd] at hadd'
      cases hadd'
      refine ⟨{ s with
                fetcher := { s.fetcher with fetchedRecords := [] }
                worker := w
                stopped := processed.isSome
                enclaveLog := s.enclaveLog ++ batch }, ?_, ?_⟩
      · simp only [step, hstop, Bool.false_eq_true, if_false]
        rw [← hbatch, htick]
      · refine ⟨hs.records_valid, hs.fetcher_lookup, hs.fetcher_contiguous, ?_, hprefix, ?_, hw⟩
        · intro k
          rw [hw', BlockTracker.highestFullyProcessedBlockCount_tracker_map]
          exact hlookup k
        · intro hrun'
          cases processed with
          | none =>
              simp only [batch, handled, List.append_nil]
              exact hqueue
          | some n => simp at hrun'

/-- Step lemma of the joined system: every admissible step succeeds and keeps
the invariant. -/
theorem step_preserves {startBlock : K → Nat} {s : ViewPipeline K} {a : PipelineStep K}
    (hs : s.Inv startBlock) (hvalid : a.Valid startBlock) :
    ∃ s', step s a = some s' ∧ s'.Inv startBlock := by
  cases a with
  | loadIngressKeys result => exact loadIngressKeys_preserves hs result hvalid
  | loadBlockData answer => exact loadBlockData_preserves hs answer
  | tick cumulativeTxoCount processed => exact tick_preserves hs cumulativeTxoCount processed

end ViewPipeline

/-! ## Runs of the pipeline -/

/-- Whatever record lists and database answers the threads see, as long as
every key keeps its start block: no step panics, each tracker's processed blocks
of a key are exactly the range from the key's start block to its entry in the
tracker, the enclave replays a prefix of the fetcher's blocks in the same order,
and the enclave tracker's map is a per-key prefix of the fetcher's. -/
theorem viewPipeline_trackers_in_step (startBlock : K → Nat) (steps : List (PipelineStep K))
    (hvalid : ∀ a ∈ steps, a.Valid startBlock) :
    ∃ s, runSteps ViewPipeline.step ViewPipeline.new steps = some s ∧
      (∀ k b, (k, b) ∈ s.fetcherLog ↔
        ∃ p, s.fetcher.blockTracker.processedBlockPerIngressKey.lookup k = some p ∧
          startBlock k ≤ b ∧ b ≤ p) ∧
      (∀ k b, (k, b) ∈ s.enclaveLog ↔
        ∃ p, s.worker.enclaveBlockTracker.processedBlockPerIngressKey.lookup k = some p ∧
          startBlock k ≤ b ∧ b ≤ p) ∧
      s.enclaveLog <+: s.fetcherLog ∧
      ∀ k e, s.worker.enclaveBlockTracker.processedBlockPerIngressKey.lookup k = some e →
        ∃ f, s.fetcher.blockTracker.processedBlockPerIngressKey.lookup k = some f ∧ e ≤ f := by
  have hstep : ∀ (s : ViewPipeline K) (a : PipelineStep K), s.Inv startBlock →
      a.Valid startBlock → ∃ s', ViewPipeline.step s a = some s' ∧ s'.Inv startBlock :=
    fun _ _ hs ha => ViewPipeline.step_preserves hs ha
  obtain ⟨s, hrun, hs⟩ := exists_runSteps_of_step hstep steps (ViewPipeline.new_inv startBlock) hvalid
  have henclave : Contiguous startBlock s.enclaveLog := hs.fetcher_contiguous.of_prefix hs.enclave_prefix
  refine ⟨s, hrun, ?_, ?_, hs.enclave_prefix, ?_⟩
  · intro k b
    rw [mem_iff_of_contiguous hs.fetcher_contiguous, hs.fetcher_lookup]
  · intro k b
    rw [mem_iff_of_contiguous henclave, hs.enclave_lookup]
  · intro k e he
    rw [hs.enclave_lookup] at he
    rw [hs.fetcher_lookup]
    exact hs.fetcher_contiguous.getLast?_le_of_prefix hs.enclave_prefix k he

/-- One key starting at block 5: its record is loaded, its first block found,
and the poll tick replays it. -/
theorem viewPipeline_trackers_in_step_one_key :
    (∀ a ∈ [PipelineStep.loadIngressKeys (.ok [⟨7, ⟨5, 100, false, false⟩, none⟩]),
        .loadBlockData (fun _ _ => .found), .tick (.ok none) none], a.Valid (fun _ => 5)) ∧
      ∃ s, runSteps ViewPipeline.step ViewPipeline.new
          [PipelineStep.loadIngressKeys (.ok [⟨7, ⟨5, 100, false, false⟩, none⟩]),
            .loadBlockData (fun _ _ => .found), .tick (.ok none) none] = some s ∧
        s.enclaveLog <+: s.fetcherLog := by
  have hvalid : ∀ a ∈ [PipelineStep.loadIngressKeys (.ok [⟨7, ⟨5, 100, false, false⟩, none⟩]),
      .loadBlockData (fun _ _ => .found), .tick (.ok none) none], a.Valid (fun _ => 5) := by
    simp [PipelineStep.Valid]
  obtain ⟨s, hrun, -, -, hpre, -⟩ := viewPipeline_trackers_in_step (fun _ => 5) _ hvalid
  exact ⟨hvalid, s, hrun, hpre⟩

end View
end Fog
