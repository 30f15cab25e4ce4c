import Fog.Ingest.Backup
import Fog.Ingest.Enclave
import Fog.RecoveryDb.SqlRecoveryDb

/-!
# A cluster of ingest servers

{lit}`IngestController` of {lit}`fog/ingest/server/src/controller.rs`, driven
by the polling loop of {lit}`IngestWorker` in {lit}`worker.rs`, as one server
of a cluster that shares the recovery database with other servers and with
the operators.  A server's operation in flight ({lit}`activate` or
{lit}`process_next_block`) is cut at its transactions: every step of a server
runs at most one transaction and the local code up to the next one, and the
steps of all servers and operators interleave in any order.  The local code
between two transactions touches only the server's own state, which no other
server reads, so cutting there loses no interleaving that matters.

The environment decides how each step's transaction or enclave call ends
({lean}`Ingest.Outcome`): it succeeds, it fails before taking effect, or it
takes effect and its reply is lost.  The enclave is a parameter
({lean}`Ingest.EnclaveApi`), so that the enclave model of
{lit}`Fog.Ingest.Enclave` or any other can stand behind the controller.  The
ledger is a function from block indices to blocks: when the worker gets to a
block is the scheduler's choice.

A panic ({lit}`expect`, {lit}`assert`) stops the server until its process
restarts.  A restart discards the operation in flight, draws a fresh egress key
and restores the state from the server's state file, as
{lit}`IngestController::new` does.

Main results:

- Theorem {lit}`Ingest.transact_db`: the database after a step's transaction
  is the one before or the one the transaction committed.
- Theorems {lit}`Ingest.IngestServer.step_db` and its kind: what a step of a
  server can do to the database, one transaction at most.
-/

namespace Fog
namespace Ingest

open RecoveryDb

/-- What the controller calls on its enclave: its current
{lit}`KexRngPubkey`, {lit}`ingest_txs`, {lit}`new_egress_key`, and the enclave
a restarted process gets from its sealed ingress key. -/
structure EnclaveApi (E Txo Rec : Type) where
  getKexRngPubkey : E → KexRng.KexRngPubkey
  ingestTxs : E → TxsForIngest Txo → Except IngestError (List Rec × Option KexRng.KexRngPubkey) × E
  newEgressKey : E → E
  restart : E → E

/-- The enclave of {lit}`Fog.Ingest.Enclave` behind the interface, over the
oblivious map {lit}`ops`.  A restarted process unseals its ingress key and gets
a fresh egress key and an empty store, as {lit}`new_egress_key` gives. -/
def IngestEnclave.api {Sk Pt Txo Plain Payload M : Type} (C : IngestCrypto Sk Pt Txo Plain Payload)
    (ops : Oram.OMapOps (List UInt8) UInt64 M) (rand : Nat → Sk) :
    EnclaveApi (IngestEnclave Sk M) Txo (EmittedRow Pt Payload) where
  getKexRngPubkey := getKexRngPubkey C
  ingestTxs := ingestTxs C ops rand
  newEgressKey := newEgressKey ops rand
  restart := newEgressKey ops rand

/-- A block of the ledger as the worker hands it over: its outputs, the
cumulative output count of the ledger up to it, and the timestamp the watcher
gives it. -/
structure LedgerBlock (Txo : Type) where
  outputs : List Txo
  cumulativeTxoCount : Nat
  timestamp : Nat

/-- The fields of {lit}`IngestServerConfig` the modelled operations read. -/
structure IngestServerConfig (U : Type) [LinearOrder U] where
  fogReportId : String
  maxTransactions : Nat
  pubkeyExpiryWindow : Nat
  peers : SortedSet U

/-- How a transaction or an enclave call ends. -/
inductive Outcome
  | succeeds
  | failsBefore
  /-- It took effect, and its reply was lost. -/
  | failsAfter
deriving DecidableEq, Repr

/-- Where a server's operation in flight stands, between two of its
transactions. -/
inductive Phase (Txo Rec : Type)
  /-- No operation in flight; an active server's worker starts the next block. -/
  | ready
  /-- {lit}`activate` found the key in the database with this status. -/
  | activatingKnown (status : IngressPublicKeyStatus)
  /-- {lit}`activate` found no key; the ledger's block count it was given. -/
  | activatingNew (ledgerNumBlocks : Nat)
  /-- {lit}`activate` chose the start block of a new key. -/
  | activatingCreate (startBlock : Nat)
  /-- {lit}`activate` set the next block index and publishes a report. -/
  | activatingPublish
  /-- {lit}`process_next_block` published its report, with this result. -/
  | reported (status : Option IngressPublicKeyStatus)
  /-- The chunks of the block left, the global index of the next txo, and the
  rows so far. -/
  | ingesting (chunks : List (List Txo)) (globalTxoIndex : Nat) (txRows : List Rec)
  /-- The enclave announced a new egress key, to record before going on. -/
  | rotating (kexRngPubkey : KexRng.KexRngPubkey) (chunks : List (List Txo)) (globalTxoIndex : Nat)
      (txRows : List Rec)
  /-- The block's rows are ready for {lit}`add_block_data`. -/
  | adding (txRows : List Rec)
  /-- The server went idle and drops its egress key and invocation. -/
  | decommissioning
  /-- A panic stopped the server. -/
  | halted

/-- One ingest server: its configuration, its controller, its enclave, its
operation in flight and its state file. -/
structure IngestServer (K U R E Txo Rec : Type) [LinearOrder U] where
  config : IngestServerConfig U
  controller : IngestController K U R
  enclave : E
  phase : Phase Txo Rec
  stateFile : Option (IngestSummary K U)

/-- How a step's transaction ends: the database after it and the result the
server receives, {lean}`none` for an error. -/
def transact {K Rec α : Type} (outcome : Outcome) (db : SqlRecoveryDb K Rec)
    (r : Except (DbError K) (α × SqlRecoveryDb K Rec)) : SqlRecoveryDb K Rec × Option α :=
  match r, outcome with
  | .error _, _ => (db, none)
  | .ok (a, db'), .succeeds => (db', some a)
  | .ok _, .failsBefore => (db, none)
  | .ok (_, db'), .failsAfter => (db', none)

section Transact

variable {K Rec α : Type} {outcome : Outcome} {db : SqlRecoveryDb K Rec}
  {r : Except (DbError K) (α × SqlRecoveryDb K Rec)}

/-- The database after a transaction is the one before or the one it
committed. -/
theorem transact_db :
    (transact outcome db r).1 = db ∨ ∃ a, r = .ok (a, (transact outcome db r).1) := by
  unfold transact
  split
  · exact .inl rfl
  · exact .inr ⟨_, rfl⟩
  · exact .inl rfl
  · exact .inr ⟨_, rfl⟩

/-- A result the server receives was committed. -/
theorem transact_eq_some {a : α} (h : (transact outcome db r).2 = some a) :
    r = .ok (a, (transact outcome db r).1) := by
  unfold transact at h ⊢
  split at h
  · cases h
  · cases h
    rfl
  · cases h
  · cases h

/-- A property that every committed database of the transaction has, and the
database before it has, holds after it. -/
theorem transact_db_of {P : SqlRecoveryDb K Rec → Prop} (hdb : P db)
    (hr : ∀ a db', r = .ok (a, db') → P db') : P (transact outcome db r).1 := by
  rcases (transact_db : (transact outcome db r).1 = db ∨ _) with h | ⟨a, h⟩
  · rw [h]
    exact hdb
  · exact hr a _ h

end Transact

/-- The phase after a chunk: the next chunk, or the rows ready to add. -/
def continueChunks {Txo Rec : Type} (chunks : List (List Txo)) (globalTxoIndex : Nat)
    (txRows : List Rec) : Phase Txo Rec :=
  match chunks with
  | [] => .adding txRows
  | _ :: _ => .ingesting chunks globalTxoIndex txRows

namespace IngestServer

variable {K U R E Txo Rec : Type} [DecidableEq K] [LinearOrder U] [DecidableEq R]
  [ConnectionUri U R]

/-- The ingress public key of the server's enclave. -/
def key (s : IngestServer K U R E Txo Rec) : K :=
  s.controller.ingressPubkey

/-- The controller's state. -/
def state (s : IngestServer K U R E Txo Rec) : IngestControllerState U :=
  s.controller.state

/-- The server with its controller state replaced. -/
def withState (s : IngestServer K U R E Txo Rec) (state : IngestControllerState U) :
    IngestServer K U R E Txo Rec :=
  { s with controller := { s.controller with state } }

/-- {lit}`write_state_file`: the summary of the controller. -/
def writeStateFile (s : IngestServer K U R E Txo Rec) : IngestServer K U R E Txo Rec :=
  { s with stateFile := some s.controller.getIngestSummaryInner }

/-- The {lit}`ReportData` of {lit}`publish_report`: the invocation and the next
block index plus the window. -/
def reportData (s : IngestServer K U R E Txo Rec) : ReportData :=
  ⟨s.state.ingestInvocationId, s.state.nextBlockIndex + s.state.pubkeyExpiryWindow⟩

/-- Whether a published status sends the server away: the key is retired and
the next block is past its expiry. -/
def retiredPast (s : IngestServer K U R E Txo Rec) (status : IngressPublicKeyStatus) : Bool :=
  status.retired && decide (status.pubkeyExpiry < s.state.nextBlockIndex)

variable (api : EnclaveApi E Txo Rec) (ledger : Nat → LedgerBlock Txo)

/-! ## The steps of {lit}`process_next_block` -/

/-- The first transaction of {lit}`process_next_block`, under the state lock:
{lit}`publish_report` for the next block. -/
def publishReport (s : IngestServer K U R E Txo Rec) (outcome : Outcome)
    (db : SqlRecoveryDb K Rec) : IngestServer K U R E Txo Rec × SqlRecoveryDb K Rec :=
  let r := transact outcome db (db.setReport s.key s.config.fogReportId s.reportData)
  ({ s with phase := .reported r.2 }, r.1)

/-- The assertion on the block's output count, then its chunks of
{lit}`max_transactions` outputs ({lit}`chunks(0)` panics), starting at the
global index of its first output. -/
def startChunks (s : IngestServer K U R E Txo Rec) : IngestServer K U R E Txo Rec :=
  let block := ledger s.state.nextBlockIndex
  if block.outputs.length ≤ block.cumulativeTxoCount ∧ 0 < s.config.maxTransactions then
    { s with
      phase := continueChunks (block.outputs.toChunks s.config.maxTransactions)
        (block.cumulativeTxoCount - block.outputs.length) [] }
  else { s with phase := .halted }

/-- The invocation id: the one held, or a new invocation for the enclave's
current egress key, starting at the block; failing to create it panics. -/
def beginIngest (s : IngestServer K U R E Txo Rec) (outcome : Outcome)
    (db : SqlRecoveryDb K Rec) : IngestServer K U R E Txo Rec × SqlRecoveryDb K Rec :=
  match s.state.ingestInvocationId with
  | some _ => (s.startChunks ledger, db)
  | none =>
      let r := transact outcome db
        (db.newIngestInvocation none s.key (api.getKexRngPubkey s.enclave) s.state.nextBlockIndex)
      match r.2 with
      | none => ({ s with phase := .halted }, r.1)
      | some iid => ((s.withState (s.state.setIngestInvocationId (some iid))).startChunks ledger, r.1)

/-- After the report: the retirement exit (idle, then {lit}`new_egress_key`),
or on to the block's chunks.  A failed report is not fatal. -/
def proceed (s : IngestServer K U R E Txo Rec) (result : Option IngressPublicKeyStatus)
    (outcome : Outcome) (db : SqlRecoveryDb K Rec) :
    IngestServer K U R E Txo Rec × SqlRecoveryDb K Rec :=
  match result with
  | some status =>
      if s.retiredPast status then
        ({ s.withState s.state.setIdle with phase := .decommissioning }, db)
      else s.beginIngest api ledger outcome db
  | none => s.beginIngest api ledger outcome db

/-- One call of {lit}`ingest_txs` on the next chunk.  An error returns from
{lit}`process_next_block` at once, with the rows so far dropped; a new egress
key is recorded before the next chunk. -/
def ingestChunk (s : IngestServer K U R E Txo Rec) (chunk : List Txo)
    (chunks : List (List Txo)) (globalTxoIndex : Nat) (txRows : List Rec) (outcome : Outcome) :
    IngestServer K U R E Txo Rec :=
  let txsChunk : TxsForIngest Txo :=
    ⟨s.state.nextBlockIndex, globalTxoIndex, chunk, (ledger s.state.nextBlockIndex).timestamp⟩
  match outcome with
  | .failsBefore => { s with phase := .ready }
  | .failsAfter => { s with enclave := (api.ingestTxs s.enclave txsChunk).2, phase := .ready }
  | .succeeds =>
      match api.ingestTxs s.enclave txsChunk with
      | (.error _, enclave) => { s with enclave, phase := .ready }
      | (.ok (rows, none), enclave) =>
          { s with
            enclave
            phase := continueChunks chunks (globalTxoIndex + chunk.length) (txRows ++ rows) }
      | (.ok (rows, some kexRngPubkey), enclave) =>
          { s with
            enclave
            phase := .rotating kexRngPubkey chunks (globalTxoIndex + chunk.length) (txRows ++ rows) }

/-- One try of the loop that records a new egress key: a new invocation
replacing the held one, retried until it succeeds. -/
def rotate (s : IngestServer K U R E Txo Rec) (kexRngPubkey : KexRng.KexRngPubkey)
    (chunks : List (List Txo)) (globalTxoIndex : Nat) (txRows : List Rec) (outcome : Outcome)
    (db : SqlRecoveryDb K Rec) : IngestServer K U R E Txo Rec × SqlRecoveryDb K Rec :=
  match s.state.ingestInvocationId with
  | none => ({ s with phase := .halted }, db)
  | some iid =>
      let r := transact outcome db
        (db.newIngestInvocation (some iid) s.key kexRngPubkey s.state.nextBlockIndex)
      match r.2 with
      | none => (s, r.1)
      | some newIid =>
          ({ s.withState (s.state.setIngestInvocationId (some newIid)) with
              phase := continueChunks chunks globalTxoIndex txRows }, r.1)

/-- One try of the loop around {lit}`add_block_data`, retried until it returns:
a lost race makes the server idle and drops its egress key; a won one moves
to the next block and writes the state file. -/
def addBlock (s : IngestServer K U R E Txo Rec) (txRows : List Rec) (outcome : Outcome)
    (db : SqlRecoveryDb K Rec) : IngestServer K U R E Txo Rec × SqlRecoveryDb K Rec :=
  match s.state.ingestInvocationId with
  | none => ({ s with phase := .halted }, db)
  | some iid =>
      let r := transact outcome db (db.addBlockData iid s.state.nextBlockIndex txRows)
      match r.2 with
      | none => (s, r.1)
      | some true => ({ s.withState s.state.setIdle with phase := .decommissioning }, r.1)
      | some false =>
          match s.state.incrementNextBlockIndex with
          | none => ({ s with phase := .halted }, r.1)
          | some state => ({ (s.withState state).writeStateFile with phase := .ready }, r.1)

/-- {lit}`new_egress_key`: only while idle; the invocation is decommissioned
(a failure is only logged) and dropped, the enclave draws a new egress key,
and the state file is written. -/
def decommission (s : IngestServer K U R E Txo Rec) (outcome : Outcome)
    (db : SqlRecoveryDb K Rec) : IngestServer K U R E Txo Rec × SqlRecoveryDb K Rec :=
  if s.state.mode ≠ .idle then ({ s with phase := .halted }, db)
  else
    let db' := match s.state.ingestInvocationId with
      | none => db
      | some iid =>
          (transact outcome db ((db.decommissionIngestInvocation iid).map fun db => ((), db))).1
    ({ (s.withState (s.state.setIngestInvocationId none)).writeStateFile with
        enclave := api.newEgressKey s.enclave
        phase := .ready }, db')

/-! ## The steps of {lit}`activate` -/

/-- {lit}`set_next_block_index` to the start block, which panics unless idle. -/
def setStart (s : IngestServer K U R E Txo Rec) (startBlock : Nat) :
    IngestServer K U R E Txo Rec :=
  match s.state.setNextBlockIndex startBlock with
  | .ok state => { s.withState state with phase := .activatingPublish }
  | .error _ => { s with phase := .halted }

/-- An existing key starts after its last scanned block, or at its start block
when none was scanned. -/
def readLastScanned (s : IngestServer K U R E Txo Rec) (status : IngressPublicKeyStatus)
    (outcome : Outcome) (db : SqlRecoveryDb K Rec) : IngestServer K U R E Txo Rec :=
  match outcome with
  | .succeeds => s.setStart (((db.getLastScannedBlockIndex s.key).map (· + 1)).getD status.startBlock)
  | _ => { s with phase := .ready }

/-- A new key starts at the larger of the ledger's block count and one past
the highest block any key scanned. -/
def readHighestKnown (s : IngestServer K U R E Txo Rec) (ledgerNumBlocks : Nat)
    (outcome : Outcome) (db : SqlRecoveryDb K Rec) : IngestServer K U R E Txo Rec :=
  match outcome with
  | .succeeds =>
      { s with
        phase := .activatingCreate
          (max ledgerNumBlocks ((db.getHighestKnownBlockIndex.map (· + 1)).getD 0)) }
  | _ => { s with phase := .ready }

/-- {lit}`new_ingress_key`; a key that another server created first fails the
activation. -/
def createKey (s : IngestServer K U R E Txo Rec) (startBlock : Nat) (outcome : Outcome)
    (db : SqlRecoveryDb K Rec) : IngestServer K U R E Txo Rec × SqlRecoveryDb K Rec :=
  let r := transact outcome db (.ok (db.newIngressKey s.key startBlock))
  match r.2 with
  | some true => (s.setStart startBlock, r.1)
  | _ => ({ s with phase := .ready }, r.1)

/-- The report of {lit}`activate`; a key retired before the start block fails
the activation, and otherwise the server becomes active and writes its state
file. -/
def finishActivation (s : IngestServer K U R E Txo Rec) (outcome : Outcome)
    (db : SqlRecoveryDb K Rec) : IngestServer K U R E Txo Rec × SqlRecoveryDb K Rec :=
  let r := transact outcome db (db.setReport s.key s.config.fogReportId s.reportData)
  match r.2 with
  | none => ({ s with phase := .ready }, r.1)
  | some status =>
      if s.retiredPast status then ({ s with phase := .ready }, r.1)
      else ({ (s.withState s.state.setActive).writeStateFile with phase := .ready }, r.1)

/-! ## A server's step, and the calls that start operations -/

/-- The next step of the server's operation in flight; an active server with
none starts the next block, an idle one waits. -/
def step (s : IngestServer K U R E Txo Rec) (outcome : Outcome) (db : SqlRecoveryDb K Rec) :
    IngestServer K U R E Txo Rec × SqlRecoveryDb K Rec :=
  match s.phase with
  | .ready => if s.state.mode = .active then s.publishReport outcome db else (s, db)
  | .activatingKnown status => (s.readLastScanned status outcome db, db)
  | .activatingNew ledgerNumBlocks => (s.readHighestKnown ledgerNumBlocks outcome db, db)
  | .activatingCreate startBlock => s.createKey startBlock outcome db
  | .activatingPublish => s.finishActivation outcome db
  | .reported result => s.proceed api ledger result outcome db
  | .ingesting [] _ txRows => ({ s with phase := .adding txRows }, db)
  | .ingesting (chunk :: chunks) globalTxoIndex txRows =>
      (s.ingestChunk api ledger chunk chunks globalTxoIndex txRows outcome, db)
  | .rotating kexRngPubkey chunks globalTxoIndex txRows =>
      s.rotate kexRngPubkey chunks globalTxoIndex txRows outcome db
  | .adding txRows => s.addBlock txRows outcome db
  | .decommissioning => s.decommission api outcome db
  | .halted => (s, db)

/-- {lit}`activate`, up to its first transaction: an active server returns at
once; otherwise the report cache and the peers are checked, and the key's
status is read.  It runs under the state lock, so not while another operation
of the server is in flight. -/
def activate (s : IngestServer K U R E Txo Rec) (ledgerNumBlocks : Nat) (env : Environment K U)
    (outcome : Outcome) (db : SqlRecoveryDb K Rec) : IngestServer K U R E Txo Rec :=
  match s.phase with
  | .ready =>
      if s.state.mode = .active then s
      else if !env.reportCacheUpdates then s
      else
        match s.controller.activatePeers env.net with
        | none => { s with phase := .halted }
        | some (.error _) => s
        | some (.ok ()) =>
            match outcome with
            | .succeeds =>
                match db.getIngressKeyStatus s.key with
                | some status => { s with phase := .activatingKnown status }
                | none => { s with phase := .activatingNew ledgerNumBlocks }
            | _ => s
  | _ => s

/-- A process started afresh: the initial state, a fresh egress key, nothing
in flight. -/
def fresh (s : IngestServer K U R E Txo Rec) : IngestServer K U R E Txo Rec :=
  { s.withState (IngestControllerState.new s.config.pubkeyExpiryWindow s.config.peers) with
    enclave := api.restart s.enclave
    phase := .ready }

/-- A restart of the server's process, {lit}`IngestController::new`: a fresh
process, its state restored from the state file if there is one, and the
state file written; a failed restore panics. -/
def restart (s : IngestServer K U R E Txo Rec) (env : Environment K U) :
    IngestServer K U R E Txo Rec :=
  match s.stateFile with
  | none => (s.fresh api).writeStateFile
  | some summary =>
      match (s.fresh api).controller.restoreStateFromSummary env summary with
      | some (.ok controller) => { s.fresh api with controller }.writeStateFile
      | _ => { s.fresh api with phase := .halted }

end IngestServer

/-! ## What a step does to the database -/

/-- What one step of a server holding the key can do to the database: nothing,
or commit one of the transactions a server runs. -/
inductive DbStep {K Rec : Type} [DecidableEq K] (key : K) (db : SqlRecoveryDb K Rec) :
    SqlRecoveryDb K Rec → Prop
  | refl : DbStep key db db
  | setReport {reportId : String} {data : ReportData} {result : IngressPublicKeyStatus}
      {db' : SqlRecoveryDb K Rec} :
      db.setReport key reportId data = .ok (result, db') → DbStep key db db'
  | newIngressKey (startBlock : Nat) : DbStep key db (db.newIngressKey key startBlock).2
  | newIngestInvocation {prev : Option Nat} {egress : KexRng.KexRngPubkey} {startBlock id : Nat}
      {db' : SqlRecoveryDb K Rec} :
      db.newIngestInvocation prev key egress startBlock = .ok (id, db') → DbStep key db db'
  | addBlockData {id blockIndex : Nat} {records : List Rec} {scanned : Bool}
      {db' : SqlRecoveryDb K Rec} :
      db.addBlockData id blockIndex records = .ok (scanned, db') → DbStep key db db'
  | decommissionIngestInvocation {id : Nat} {db' : SqlRecoveryDb K Rec} :
      db.decommissionIngestInvocation id = .ok db' → DbStep key db db'

namespace DbStep

variable {K Rec : Type} [DecidableEq K] {key : K} {db db' : SqlRecoveryDb K Rec}

/-- Every step grows the database. -/
theorem grows (h : DbStep key db db') : db.Grows db' := by
  cases h with
  | refl => exact SqlRecoveryDb.Grows.refl db
  | setReport h => exact SqlRecoveryDb.grows_setReport h
  | newIngressKey startBlock => exact SqlRecoveryDb.grows_newIngressKey db key startBlock
  | newIngestInvocation h => exact SqlRecoveryDb.grows_newIngestInvocation h
  | addBlockData h => exact SqlRecoveryDb.grows_addBlockData h
  | decommissionIngestInvocation h => exact SqlRecoveryDb.grows_decommissionIngestInvocation h

/-- A transaction of a server, under any outcome, is a step. -/
theorem of_transact {α : Type} {outcome : Outcome} {r : Except (DbError K) (α × SqlRecoveryDb K Rec)}
    (hr : ∀ a db', r = .ok (a, db') → DbStep key db db') :
    DbStep key db (transact outcome db r).1 :=
  transact_db_of .refl hr

end DbStep

namespace IngestServer

variable {K U R E Txo Rec : Type} [DecidableEq K] [LinearOrder U] [DecidableEq R]
  [ConnectionUri U R] (api : EnclaveApi E Txo Rec) (ledger : Nat → LedgerBlock Txo)
  {s : IngestServer K U R E Txo Rec} {outcome : Outcome} {db : SqlRecoveryDb K Rec}

omit [DecidableEq R] [ConnectionUri U R] in
/-- Beginning to ingest writes at most a new invocation of the server's key. -/
theorem beginIngest_db : DbStep s.key db (s.beginIngest api ledger outcome db).2 := by
  unfold beginIngest
  split
  · exact .refl
  · dsimp only
    split <;> exact DbStep.of_transact fun _ _ h => .newIngestInvocation h

omit [DecidableEq R] [ConnectionUri U R] in
/-- A rotation writes at most a new invocation of the server's key. -/
theorem rotate_db {kexRngPubkey : KexRng.KexRngPubkey} {chunks : List (List Txo)}
    {globalTxoIndex : Nat} {txRows : List Rec} :
    DbStep s.key db (s.rotate kexRngPubkey chunks globalTxoIndex txRows outcome db).2 := by
  unfold rotate
  split
  · exact .refl
  · dsimp only
    split <;> exact DbStep.of_transact fun _ _ h => .newIngestInvocation h

omit [DecidableEq R] [ConnectionUri U R] in
/-- Adding a block writes at most the block under the server's invocation. -/
theorem addBlock_db {txRows : List Rec} : DbStep s.key db (s.addBlock txRows outcome db).2 := by
  unfold addBlock
  split
  · exact .refl
  · rename_i iid _
    have hstep : DbStep s.key db
        (transact outcome db (db.addBlockData iid s.state.nextBlockIndex txRows)).1 :=
      DbStep.of_transact fun _ _ h => .addBlockData h
    dsimp only
    split
    · exact hstep
    · exact hstep
    · split <;> exact hstep

omit [DecidableEq R] [ConnectionUri U R] in
/-- A decommission writes at most the decommission of an invocation. -/
theorem decommission_db : DbStep s.key db (s.decommission api outcome db).2 := by
  unfold decommission
  split
  · exact .refl
  · dsimp only
    split
    · exact .refl
    · refine DbStep.of_transact fun _ _ h => ?_
      obtain ⟨db', hdec, hpair⟩ := Except.map_eq_ok.1 h
      cases hpair
      exact .decommissionIngestInvocation hdec

omit [DecidableEq R] [ConnectionUri U R] in
/-- Creating a key writes at most the server's key. -/
theorem createKey_db {startBlock : Nat} : DbStep s.key db (s.createKey startBlock outcome db).2 := by
  have hstep : DbStep s.key db (transact outcome db (.ok (db.newIngressKey s.key startBlock))).1 :=
    DbStep.of_transact fun _ _ h => by
      cases h
      exact .newIngressKey startBlock
  unfold createKey
  dsimp only
  split <;> exact hstep

omit [DecidableEq R] [ConnectionUri U R] in
/-- Finishing the activation writes at most a report of the server's key. -/
theorem finishActivation_db : DbStep s.key db (s.finishActivation outcome db).2 := by
  have hstep : DbStep s.key db
      (transact outcome db (db.setReport s.key s.config.fogReportId s.reportData)).1 :=
    DbStep.of_transact fun _ _ h => .setReport h
  unfold finishActivation
  dsimp only
  split
  · exact hstep
  · split <;> exact hstep

omit [DecidableEq R] [ConnectionUri U R] in
/-- A step of a server runs one of its transactions at most. -/
theorem step_db : DbStep s.key db (s.step api ledger outcome db).2 := by
  unfold step
  split
  · split
    · exact DbStep.of_transact fun _ _ h => .setReport h
    · exact .refl
  · exact .refl
  · exact .refl
  · exact createKey_db
  · exact finishActivation_db
  · unfold proceed
    split
    · split
      · exact .refl
      · exact beginIngest_db api ledger
    · exact beginIngest_db api ledger
  · exact .refl
  · exact .refl
  · exact rotate_db
  · exact addBlock_db
  · exact decommission_db api
  · exact .refl

end IngestServer

/-! ## The cluster -/

/-- The recovery database and every server. -/
structure World (K U R E Txo Rec : Type) [LinearOrder U] where
  db : SqlRecoveryDb K Rec
  servers : Nat → IngestServer K U R E Txo Rec

/-- What can happen next: a server's step, with the outcome of its
transaction or call; an operator's {lit}`activate`; a server's restart; or an
operator retiring or unretiring a key. -/
inductive Event (K U : Type) [LinearOrder U]
  | step (i : Nat) (outcome : Outcome)
  | activate (i : Nat) (ledgerNumBlocks : Nat) (env : Environment K U) (outcome : Outcome)
  | restart (i : Nat) (env : Environment K U)
  | retire (key : K) (setRetired : Bool)

namespace World

variable {K U R E Txo Rec : Type} [DecidableEq K] [LinearOrder U] [DecidableEq R]
  [ConnectionUri U R] (api : EnclaveApi E Txo Rec) (ledger : Nat → LedgerBlock Txo)

/-- The world with one server and the database replaced. -/
def update (w : World K U R E Txo Rec) (i : Nat) (s : IngestServer K U R E Txo Rec)
    (db : SqlRecoveryDb K Rec) : World K U R E Txo Rec :=
  ⟨db, Function.update w.servers i s⟩

/-- One event. -/
def step (w : World K U R E Txo Rec) : Event K U → World K U R E Txo Rec
  | .step i outcome =>
      let r := (w.servers i).step api ledger outcome w.db
      w.update i r.1 r.2
  | .activate i ledgerNumBlocks env outcome =>
      w.update i ((w.servers i).activate ledgerNumBlocks env outcome w.db) w.db
  | .restart i env => w.update i ((w.servers i).restart api env) w.db
  | .retire key setRetired => { w with db := w.db.retireIngressKey key setRetired }

/-- The events in order. -/
def run (w : World K U R E Txo Rec) (events : List (Event K U)) : World K U R E Txo Rec :=
  events.foldl (step api ledger) w

/-- A new deployment: the empty database, and every server as a process
started without a state file leaves it. -/
def new (servers : Nat → IngestServer K U R E Txo Rec) : World K U R E Txo Rec :=
  ⟨SqlRecoveryDb.empty, fun i => ((servers i).fresh api).writeStateFile⟩

omit [DecidableEq K] [DecidableEq R] [ConnectionUri U R] in
/-- The server replaced is the one given. -/
@[simp]
theorem update_servers_self (w : World K U R E Txo Rec) (i : Nat)
    (s : IngestServer K U R E Txo Rec) (db : SqlRecoveryDb K Rec) :
    (w.update i s db).servers i = s := by
  simp [update]

omit [DecidableEq K] [DecidableEq R] [ConnectionUri U R] in
/-- The other servers are left alone. -/
@[simp]
theorem update_servers_of_ne (w : World K U R E Txo Rec) {i j : Nat}
    (s : IngestServer K U R E Txo Rec) (db : SqlRecoveryDb K Rec) (h : j ≠ i) :
    (w.update i s db).servers j = w.servers j := by
  simp [update, Function.update_of_ne h]

omit [DecidableEq K] [DecidableEq R] [ConnectionUri U R] in
/-- The database is the one given. -/
@[simp]
theorem update_db (w : World K U R E Txo Rec) (i : Nat) (s : IngestServer K U R E Txo Rec)
    (db : SqlRecoveryDb K Rec) : (w.update i s db).db = db :=
  rfl

/-- No events leave the world alone. -/
@[simp]
theorem run_nil (w : World K U R E Txo Rec) : run api ledger w [] = w :=
  rfl

/-- A run of two lists of events is the run of the second after the first. -/
theorem run_append (w : World K U R E Txo Rec) (es es' : List (Event K U)) :
    run api ledger w (es ++ es') = run api ledger (run api ledger w es) es' :=
  List.foldl_append

/-- Invariant rule: a predicate that every event keeps holds after every run. -/
theorem invariant_run {P : World K U R E Txo Rec → Prop}
    (hstep : ∀ w e, P w → P (step api ledger w e)) :
    ∀ (es : List (Event K U)) {w : World K U R E Txo Rec}, P w → P (run api ledger w es)
  | [], _, hw => hw
  | e :: es, w, hw => invariant_run hstep es (hstep w e hw)

end World

/-! ## A cluster sharing one key -/

/-- The enclave model with the crypto of two users, the bounded association
list as its map, and a tape that always draws the same key. -/
def exampleApi :
    EnclaveApi (IngestEnclave Bool (Oram.BoundedMap (List UInt8) UInt64)) (List UInt8)
      (EmittedRow Bool (Bool × (List UInt8 × FogTxOutMetadata))) :=
  IngestEnclave.api twoUserCrypto boundedRngMap fun _ => false

/-- Every block has two outputs: a hint for the user {lean}`true` and a
malformed one. -/
def exampleLedger : Nat → LedgerBlock (List UInt8) :=
  fun _ => ⟨[[1], [5]], 2, 0⟩

/-- Servers that all hold the ingress key 7, with chunks of one output, a
window of zero and no peers. -/
def exampleServers (i : Nat) :
    IngestServer Nat Nat Nat (IngestEnclave Bool (Oram.BoundedMap (List UInt8) UInt64)) (List UInt8)
      (EmittedRow Bool (Bool × (List UInt8 × FogTxOutMetadata))) :=
  { config := ⟨"", 1, 0, SortedSet.ofList []⟩
    controller := ⟨i, .new 0 (SortedSet.ofList []), 7⟩
    enclave := enclaveInit boundedRngMap (fun _ => false) 4 none
    phase := .ready
    stateFile := none }

/-- A network whose peers never answer, and a report cache that updates. -/
def exampleEnv : Environment Nat Nat :=
  ⟨fun _ => ⟨.error .grpc, fun _ => .error .grpc, fun _ => .error .grpc⟩, true⟩

/-- Server 0 activates a new key at block 0 and takes block 0: the enclave
ingests the first chunk, the call on the second fails, {lit}`process_next_block`
returns, and the worker hands block 0 over again, which then goes through. -/
def chunkFailureRetry : List (Event Nat Nat) :=
  .activate 0 0 exampleEnv .succeeds :: List.replicate 6 (.step 0 .succeeds) ++
    .step 0 .failsBefore :: List.replicate 5 (.step 0 .succeeds)

/-- After the retry, the only record published for the user {lean}`true` under
the one egress key recorded carries the RNG output at counter 1: the output at
counter 0 went to the row dropped with the failed attempt. -/
theorem chunk_failure_skips_rng_output :
    (World.run exampleApi exampleLedger (World.new exampleApi exampleServers)
        chunkFailureRetry).db.egressPublicKeys.map (·.2) = [kexRngPubkey twoUserCrypto false] ∧
      ((World.run exampleApi exampleLedger (World.new exampleApi exampleServers)
        chunkFailureRetry).db.blockRecords.flatMap fun entry =>
          entry.2.2.map (·.record.searchKey)) =
        [twoUserCrypto.prf (twoUserCrypto.keyExchange false (twoUserCrypto.pub true)) 1] ∧
      twoUserCrypto.prf (twoUserCrypto.keyExchange false (twoUserCrypto.pub true)) 0 ≠
        twoUserCrypto.prf (twoUserCrypto.keyExchange false (twoUserCrypto.pub true)) 1 :=
  ⟨by decide, by decide, by decide⟩

end Ingest
end Fog
