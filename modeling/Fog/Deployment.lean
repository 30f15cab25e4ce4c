import Fog.Ingest.Retirement
import Fog.RecoveryDb.Queries
import Fog.View.DbFetcher

/-!
# The ingest cluster feeding the view server

The ingest servers write blocks into the recovery database and the view
server's fetcher thread reads them back: {lit}`load_ingress_keys` asks
{lit}`get_ingress_key_records` for the keys, {lit}`load_block_data` asks
{lit}`get_tx_outs_by_block_and_key` for the next block of every key, and the
poll thread replays the fetched blocks into the enclave.  This module joins
the cluster of {lit}`Fog.Ingest` and the view pipeline of
{lit}`Fog.View.DbFetcher` into one system over the shared database: any
interleaving of the servers' steps, the operators' retirements and the view
threads' steps, where each view step reads the database as it is at that
moment.

Main results:

- Theorem {lit}`World.blocksWf_run`: every run of the cluster keeps one row per
  key and block, so the block queries never report a schema violation.
- Theorem {lit}`Deployment.ok_run`: every interleaving keeps the cluster's
  invariant, the view pipeline's invariant for the start blocks the database
  holds, and every block the fetcher took scanned by the cluster.
-/

namespace Fog

open RecoveryDb Run View

namespace Ingest

namespace DbStep

variable {K Rec : Type} [DecidableEq K] {key : K} {db db' : SqlRecoveryDb K Rec}

/-- Every step of a server keeps the blocks well formed. -/
theorem blocksWf (h : DbStep key db db') (hb : db.BlocksWf) : db'.BlocksWf := by
  cases h with
  | refl => exact hb
  | setReport h => exact hb.setReport h
  | newIngressKey startBlock => exact hb.newIngressKey key startBlock
  | newIngestInvocation h => exact hb.newIngestInvocation h
  | addBlockData h => exact hb.addBlockData h
  | decommissionIngestInvocation h => exact hb.decommissionIngestInvocation h

end DbStep

namespace World

variable {K U R E Txo Rec : Type} [DecidableEq K] [LinearOrder U] [DecidableEq R]
  [ConnectionUri U R] (api : EnclaveApi E Txo Rec) (ledger : Nat → LedgerBlock Txo)
  {w : World K U R E Txo Rec}

/-- Every event keeps the blocks well formed. -/
theorem blocksWf_step (hb : w.db.BlocksWf) (e : Event K U) : (step api ledger w e).db.BlocksWf := by
  rcases db_step api ledger w e with ⟨i, h⟩ | ⟨key, setRetired, hdb, -⟩
  · exact h.blocksWf hb
  · rw [hdb]
    exact hb.retireIngressKey key setRetired

/-- Every run from a new deployment keeps the blocks well formed. -/
theorem blocksWf_run (servers : Nat → IngestServer K U R E Txo Rec) (events : List (Event K U)) :
    (run api ledger (new api servers) events).db.BlocksWf :=
  invariant_run api ledger (P := fun w => w.db.BlocksWf)
    (fun _ e hb => blocksWf_step api ledger hb e) events SqlRecoveryDb.blocksWf_empty

/-- In every run of the cluster from a new deployment, the two block queries of
the view server never report a schema violation:
{lit}`get_tx_outs_by_block_and_key` finds records exactly for the blocks scanned
with the key, and {lit}`get_invocation_id_by_block_and_key` names an
invocation of the key. -/
theorem blockQueries_run (servers : Nat → IngestServer K U R E Txo Rec)
    (events : List (Event K U)) (k : K) (b : Nat) :
    let db := (run api ledger (new api servers) events).db
    (∃ r, db.getTxOutsByBlockAndKey k b = .ok r ∧ (r.isSome ↔ b ∈ db.tables.scannedBlocks k)) ∧
      ∃ r, db.getInvocationIdByBlockAndKey k b = .ok r ∧ ∀ iid ∈ r, ∃ inv,
        db.tables.ingestInvocations iid = some inv ∧ inv.ingressPublicKey = k := by
  intro db
  have hwf : db.BlocksWf := blocksWf_run api ledger servers events
  obtain ⟨htx, hsome⟩ := SqlRecoveryDb.getTxOutsByBlockAndKey_eq hwf k b
  obtain ⟨hiid, howned⟩ := SqlRecoveryDb.getInvocationIdByBlockAndKey_eq hwf k b
  refine ⟨⟨_, htx, hsome⟩, _, hiid, fun iid hmem => ?_⟩
  obtain ⟨e, he, rfl⟩ := Option.mem_map.1 hmem
  exact howned e he

end World

end Ingest

/-! ## The joined system -/

variable {K U R E Txo Rec : Type}

/-- The fetcher's reading of {lit}`get_tx_outs_by_block_and_key`: the three
arms of the match in {lit}`load_block_data`. -/
def fetchAnswer [DecidableEq K] (db : SqlRecoveryDb K Rec) (k : K) (b : Nat) : FetchAnswer :=
  match db.getTxOutsByBlockAndKey k b with
  | .ok (some _) => .found
  | .ok none => .notFound
  | .error _ => .error

/-- A step of the view server's threads: the fetcher's reload of the key
records over the keys its query visits, its loop over the next blocks, or the
poll thread's tick. -/
inductive ViewEvent (K : Type)
  | loadIngressKeys (keys : List K)
  | loadBlockData
  | tick (cumulativeTxoCount : Except Unit (Option Nat)) (processed : Option Nat)

/-- The pipeline step a view event is, with the database's answers of the
moment. -/
def ViewEvent.read [DecidableEq K] (db : SqlRecoveryDb K Rec) : ViewEvent K → PipelineStep K
  | .loadIngressKeys keys => .loadIngressKeys (.ok (db.getIngressKeyRecords keys 0))
  | .loadBlockData => .loadBlockData (fetchAnswer db)
  | .tick cumulativeTxoCount processed => .tick cumulativeTxoCount processed

/-- The ingest cluster with its database, and the view server's threads. -/
structure Deployment (K U R E Txo Rec : Type) [LinearOrder U] where
  world : Ingest.World K U R E Txo Rec
  view : ViewPipeline K

/-- What can happen next: an event of the cluster, or a step of the view
server. -/
inductive DeploymentEvent (K U : Type) [LinearOrder U]
  | ingest (e : Ingest.Event K U)
  | view (e : ViewEvent K)

namespace Deployment

variable [DecidableEq K] [LinearOrder U] [DecidableEq R] [Ingest.ConnectionUri U R]
  (api : Ingest.EnclaveApi E Txo Rec) (ledger : Nat → Ingest.LedgerBlock Txo)

/-- A new deployment: the new cluster and the view threads freshly started. -/
def new (servers : Nat → Ingest.IngestServer K U R E Txo Rec) : Deployment K U R E Txo Rec :=
  ⟨Ingest.World.new api servers, ViewPipeline.new⟩

/-- One event; {lean}`none` is a panic of a view thread. -/
def step (d : Deployment K U R E Txo Rec) : DeploymentEvent K U → Option (Deployment K U R E Txo Rec)
  | .ingest e => some { d with world := Ingest.World.step api ledger d.world e }
  | .view e => (d.view.step (e.read d.world.db)).map fun view => { d with view }

/-! ## The invariant -/

/-- A choice of start blocks that agrees with every key of the database. -/
def StartsAgree (startBlock : K → Nat) (db : SqlRecoveryDb K Rec) : Prop :=
  ∀ k status, db.tables.ingressKeys k = some status → startBlock k = status.startBlock

/-- The start block of every key of the database, and 0 for the others. -/
def startsOf (db : SqlRecoveryDb K Rec) (k : K) : Nat :=
  ((db.tables.ingressKeys k).map (·.startBlock)).getD 0

omit [DecidableEq K] in
/-- The start blocks read off a database agree with it. -/
theorem startsAgree_startsOf (db : SqlRecoveryDb K Rec) : StartsAgree (startsOf db) db := by
  intro k status hk
  simp [startsOf, hk]

omit [DecidableEq K] in
/-- Start blocks that agree with a database agree with every earlier one. -/
theorem StartsAgree.of_grows {startBlock : K → Nat} {db db' : SqlRecoveryDb K Rec}
    (h : StartsAgree startBlock db') (hg : db.Grows db') : StartsAgree startBlock db := by
  intro k status hk
  obtain ⟨status', hk', hstart, -⟩ := hg.tables.keys k status hk
  rw [h k status' hk', hstart]

/-- The view steps read from a database are admissible for start blocks that
agree with it: the key records carry their keys' start blocks. -/
theorem valid_read {startBlock : K → Nat} {db : SqlRecoveryDb K Rec} (h : StartsAgree startBlock db)
    (e : ViewEvent K) : (e.read db).Valid startBlock := by
  cases e with
  | loadIngressKeys keys =>
      intro rec hrec
      exact (h _ _ (SqlRecoveryDb.getIngressKeyRecords_mem hrec).1).symm
  | loadBlockData => trivial
  | tick cumulativeTxoCount processed => trivial

/-- On a well-formed database the fetcher never sees an error, and finds a
block exactly when it is scanned with the key. -/
theorem fetchAnswer_spec {db : SqlRecoveryDb K Rec} (h : db.BlocksWf) (k : K) (b : Nat) :
    fetchAnswer db k b ≠ .error ∧ (fetchAnswer db k b = .found ↔ b ∈ db.tables.scannedBlocks k) := by
  obtain ⟨hq, hsome⟩ := SqlRecoveryDb.getTxOutsByBlockAndKey_eq h k b
  unfold fetchAnswer
  rw [hq, ← hsome]
  cases ((db.blockRows k b).head?.map (·.2)) <;> simp

/-- The blocks the fetcher's loop queues are blocks the answers found. -/
theorem loadBlock_run_found (answer : K → Nat → FetchAnswer) :
    ∀ (entries : List (K × Nat)) (s s' : DbFetcherThread K),
      runSteps (DbFetcherThread.loadBlock answer) s entries = some s' →
      ∃ added, s'.fetchedRecords = s.fetchedRecords ++ added ∧
        ∀ e ∈ added, answer e.1 e.2 = .found
  | [], s, s', h => ⟨[], by simp_all, by simp⟩
  | (k, b) :: rest, s, s', h => by
      rw [runSteps_cons] at h
      obtain ⟨s₁, h₁, hrest⟩ := Option.bind_eq_some_iff.1 h
      obtain ⟨added, hadded, hfound⟩ := loadBlock_run_found answer rest s₁ s' hrest
      unfold DbFetcherThread.loadBlock at h₁
      split at h₁
      · rename_i hans
        obtain ⟨t, -, rfl⟩ := Option.map_eq_some_iff.1 h₁
        refine ⟨(k, b) :: added, by simp [hadded], ?_⟩
        rintro e (_ | ⟨_, he⟩)
        · exact hans
        · exact hfound e he
      · cases h₁
        exact ⟨added, hadded, hfound⟩
      · cases h₁
        exact ⟨added, hadded, hfound⟩

/-- The fetcher's log grows only by blocks the answers found. -/
theorem fetcherLog_step {v v' : ViewPipeline K} {a : PipelineStep K} (h : v.step a = some v') :
    ∃ added, v'.fetcherLog = v.fetcherLog ++ added ∧
      ∀ e ∈ added, ∃ answer, a = .loadBlockData answer ∧ answer e.1 e.2 = .found := by
  cases a with
  | loadIngressKeys result =>
      cases h
      exact ⟨[], by simp, by simp⟩
  | loadBlockData answer =>
      obtain ⟨f, hf, rfl⟩ := Option.map_eq_some_iff.1 h
      obtain ⟨added, hadded, hfound⟩ := loadBlock_run_found answer _ _ _ hf
      refine ⟨added, by rw [hadded, List.drop_left], fun e he => ⟨answer, rfl, hfound e he⟩⟩
  | tick cumulativeTxoCount processed =>
      simp only [ViewPipeline.step] at h
      split at h
      · cases h
        exact ⟨[], by simp, by simp⟩
      · split at h
        · cases h
        · cases h
          exact ⟨[], by simp, by simp⟩

/-- The invariant of the joined system: the cluster's, the blocks well formed,
the view pipeline's for every choice of start blocks that agrees with the
database, and every block in the fetcher's log scanned with its key. -/
structure Ok (d : Deployment K U R E Txo Rec) : Prop where
  world : Ingest.World.WorldOk d.world
  blocks : d.world.db.BlocksWf
  view : ∀ startBlock, StartsAgree startBlock d.world.db → d.view.Inv startBlock
  fetched : ∀ k b, (k, b) ∈ d.view.fetcherLog → b ∈ d.world.db.tables.scannedBlocks k

omit [DecidableEq R] [Ingest.ConnectionUri U R] in
/-- A new deployment satisfies the invariant. -/
theorem ok_new (servers : Nat → Ingest.IngestServer K U R E Txo Rec) : (new api servers).Ok where
  world := Ingest.World.worldOk_new api servers
  blocks := SqlRecoveryDb.blocksWf_empty
  view startBlock _ := ViewPipeline.new_inv startBlock
  fetched _ _ h := by cases h

/-- A cluster event keeps the invariant: the database only grows, so start
blocks that agree with it agree with the old one, and scanned blocks stay
scanned. -/
theorem Ok.ingest {d : Deployment K U R E Txo Rec} (hd : d.Ok) (e : Ingest.Event K U) :
    Ok { d with world := Ingest.World.step api ledger d.world e } := by
  have hg := Ingest.World.grows_step api ledger d.world e
  refine ⟨hd.world.step api ledger e, Ingest.World.blocksWf_step api ledger hd.blocks e,
    fun startBlock hsb => hd.view startBlock (hsb.of_grows hg), fun k b hkb => ?_⟩
  exact ((hg.tables.blocks.filter _).map _).subset (hd.fetched k b hkb)

/-- A view step never panics and keeps the invariant. -/
theorem Ok.viewEvent {d : Deployment K U R E Txo Rec} (hd : d.Ok) (e : ViewEvent K) :
    ∃ d', step api ledger d (.view e) = some d' ∧ d'.Ok := by
  obtain ⟨v, hv, -⟩ := ViewPipeline.step_preserves (hd.view _ (startsAgree_startsOf d.world.db))
    (valid_read (startsAgree_startsOf d.world.db) e)
  refine ⟨{ d with view := v }, by simp [step, hv], hd.world, hd.blocks, fun startBlock hsb => ?_,
    fun k b hkb => ?_⟩
  · obtain ⟨v', hv', hinv⟩ := ViewPipeline.step_preserves (hd.view startBlock hsb) (valid_read hsb e)
    rw [hv, Option.some.injEq] at hv'
    exact hv' ▸ hinv
  · obtain ⟨added, hlog, hfound⟩ := fetcherLog_step hv
    rw [hlog] at hkb
    rcases List.mem_append.1 hkb with hold | hnew
    · exact hd.fetched k b hold
    · obtain ⟨answer, hread, hans⟩ := hfound (k, b) hnew
      cases e with
      | loadBlockData =>
          cases hread
          exact ((fetchAnswer_spec hd.blocks k b).2).1 hans
      | loadIngressKeys keys => cases hread
      | tick cumulativeTxoCount processed => cases hread

/-- Every event of a deployment that satisfies the invariant runs without a
panic and keeps it. -/
theorem Ok.step {d : Deployment K U R E Txo Rec} (hd : d.Ok) (e : DeploymentEvent K U) :
    ∃ d', step api ledger d e = some d' ∧ d'.Ok := by
  cases e with
  | ingest e => exact ⟨_, rfl, hd.ingest api ledger e⟩
  | view e => exact hd.viewEvent api ledger e

/-- Every interleaving from a new deployment runs without a panic and keeps
the invariant. -/
theorem ok_run (servers : Nat → Ingest.IngestServer K U R E Txo Rec)
    (events : List (DeploymentEvent K U)) :
    ∃ d, runSteps (step api ledger) (new api servers) events = some d ∧ d.Ok :=
  exists_runSteps_of_step (fun _ e hd (_ : True) => hd.step api ledger e) events
    (ok_new api servers) (fun _ _ => trivial)

/-- In every interleaving of the cluster and the view server from a new
deployment, no view thread panics and the fetcher never gets an error from the
database.  For every key of the database, the blocks the fetcher took are the
first blocks of the interval the cluster scanned from the key's start block,
and the fetcher took none for a key the database does not have; the enclave
replays a prefix of the fetcher's blocks. -/
theorem view_follows_ingest (servers : Nat → Ingest.IngestServer K U R E Txo Rec)
    (events : List (DeploymentEvent K U)) :
    ∃ d, runSteps (step api ledger) (new api servers) events = some d ∧
      (∀ k b, fetchAnswer d.world.db k b ≠ .error) ∧
      d.view.enclaveLog <+: d.view.fetcherLog ∧
      (∀ k, d.world.db.tables.ingressKeys k = none → blocksOf k d.view.fetcherLog = []) ∧
      ∀ k status, d.world.db.tables.ingressKeys k = some status →
        ∃ m n, m ≤ n ∧ blocksOf k d.view.fetcherLog = List.range' status.startBlock m ∧
          d.world.db.tables.scannedBlocks k = List.range' status.startBlock n := by
  obtain ⟨d, hrun, hd⟩ := ok_run api ledger servers events
  have hinv := hd.view _ (startsAgree_startsOf d.world.db)
  have hsub : ∀ k, blocksOf k d.view.fetcherLog ⊆ d.world.db.tables.scannedBlocks k :=
    fun k b hb => hd.fetched k b ((mem_iff_mem_blocksOf k b _).2 hb)
  refine ⟨d, hrun, fun k b => (fetchAnswer_spec hd.blocks k b).1, hinv.enclave_prefix,
    fun k hk => ?_, fun k status hk => ?_⟩
  · rw [← List.subset_nil]
    rw [← SqlRecoveryDb.scannedBlocks_eq_nil hd.world.db hk]
    exact hsub k
  · obtain ⟨m, hm⟩ := hinv.fetcher_contiguous k
    have hstart : startsOf d.world.db k = status.startBlock := by simp [startsOf, hk]
    rw [hstart] at hm
    have hn := hd.world.db.contiguous k status hk
    refine ⟨m, _, ?_, hm, hn⟩
    have := hsub k
    rw [hm, hn] at this
    exact List.range'_subset_right_1.1 this

end Deployment

end Fog
