import Fog.Ingest.Controller

/-!
# The blocks scanned with a key stay contiguous

{lit}`add_block_data` refuses a block already scanned with a key, but nothing in
the database refuses a block past the end of the key's scanned blocks: only the
servers keep the blocks they add in order.  A server's next block index comes
from three places, the block after the key's last scanned one (or its start
block) in {lit}`activate`, a new key's start block, and the state file on a
restart, and it moves on only past a block the server added itself.  Across the
whole cluster, every next block index a server may use lies between the key's
start block and one past its last scanned block, so that each block added is
the one after the interval.

The invariant of one server, {lit}`ServerOk`, is kept by each step of the
server's own operation and, since the database only grows, by every step of
the others.

Main results:

- Theorem {lit}`IngestServer.step_ok`: a server's step keeps the scans
  contiguous and the server's invariant.
- Theorem {lit}`World.worldOk_run`: every run of the cluster from a new
  deployment keeps the invariant of the database and of every server.
-/

namespace Fog
namespace Ingest

open RecoveryDb

section Invariant

variable {K U R E Txo Rec : Type} [DecidableEq K] [LinearOrder U]

/-- What a controller state promises about the database: its invocation is one
of its key's, and an active server's next block is in the key's range. -/
structure StateOk (db : SqlRecoveryDb K Rec) (key : K) (st : IngestControllerState U) : Prop where
  invocation : ∀ iid, st.ingestInvocationId = some iid →
    ∃ inv, db.tables.ingestInvocations iid = some inv ∧ inv.ingressPublicKey = key
  active : st.mode = .active → db.InRange key st.nextBlockIndex

/-- What the operation in flight promises: the key {lit}`activate` read still
has the start block read, the start block to publish is in range, and a block
is processed only by an active server. -/
def PhaseOk (db : SqlRecoveryDb K Rec) (key : K) (st : IngestControllerState U) :
    Phase Txo Rec → Prop
  | .activatingKnown status =>
      ∃ status', db.tables.ingressKeys key = some status' ∧ status'.startBlock = status.startBlock
  | .activatingPublish => db.InRange key st.nextBlockIndex
  | .reported _ | .ingesting _ _ _ | .rotating _ _ _ _ | .adding _ => st.mode = .active
  | _ => True

/-- An active state file's next block is in range. -/
def FileOk (db : SqlRecoveryDb K Rec) (key : K) : Option (IngestSummary K U) → Prop
  | some summary => summary.mode = .active → db.InRange key summary.nextBlockIndex
  | none => True

/-- The invariant of one server. -/
structure ServerOk (db : SqlRecoveryDb K Rec) (s : IngestServer K U R E Txo Rec) : Prop where
  state : StateOk db s.key s.state
  phase : PhaseOk db s.key s.state s.phase
  stateFile : FileOk db s.key s.stateFile

variable {db db' : SqlRecoveryDb K Rec} {key : K} {st : IngestControllerState U}

/-! ## The invariant survives the steps of other servers -/

/-- A state's promise survives the growth of the database. -/
theorem StateOk.mono (h : StateOk db key st) (hg : db.Grows db') : StateOk db' key st where
  invocation iid hiid := by
    obtain ⟨inv, hinv, hkey⟩ := h.invocation iid hiid
    obtain ⟨inv', hinv', hkey'⟩ := hg.tables.invocations iid inv hinv
    exact ⟨inv', hinv', hkey'.trans hkey⟩
  active hactive := (h.active hactive).mono hg

/-- A phase's promise survives the growth of the database. -/
theorem PhaseOk.mono {p : Phase Txo Rec} (h : PhaseOk db key st p) (hg : db.Grows db') :
    PhaseOk db' key st p := by
  cases p with
  | activatingKnown status =>
      obtain ⟨status', hs', hstart⟩ := h
      obtain ⟨status'', hs'', hsame, -⟩ := hg.tables.keys key status' hs'
      exact ⟨status'', hs'', hsame.trans hstart⟩
  | activatingPublish => exact SqlRecoveryDb.InRange.mono hg h
  | _ => exact h

omit [LinearOrder U] in
/-- A state file's promise survives the growth of the database. -/
theorem FileOk.mono {file : Option (IngestSummary K U)} (h : FileOk db key file)
    (hg : db.Grows db') : FileOk db' key file := by
  cases file with
  | none => trivial
  | some summary => exact fun hactive => SqlRecoveryDb.InRange.mono hg (h hactive)

/-- A server's invariant survives the steps of other servers. -/
theorem ServerOk.mono {s : IngestServer K U R E Txo Rec} (h : ServerOk db s) (hg : db.Grows db') :
    ServerOk db' s :=
  ⟨h.state.mono hg, h.phase.mono hg, h.stateFile.mono hg⟩

/-! ## The invariant under the changes of one server -/

/-- An idle state promises nothing of its index. -/
theorem StateOk.setIdle (h : StateOk db key st) : StateOk db key st.setIdle where
  invocation := h.invocation
  active hactive := by cases hactive

/-- A state becomes active only at an index in range. -/
theorem StateOk.setActive (h : StateOk db key st) (hr : db.InRange key st.nextBlockIndex) :
    StateOk db key st.setActive where
  invocation := h.invocation
  active _ := hr

/-- A state may hold an invocation of its own key. -/
theorem StateOk.setIngestInvocationId (h : StateOk db key st) {v : Option Nat}
    (hv : ∀ iid, v = some iid →
      ∃ inv, db.tables.ingestInvocations iid = some inv ∧ inv.ingressPublicKey = key) :
    StateOk db key (st.setIngestInvocationId v) where
  invocation := hv
  active := h.active

/-- An idle state promises nothing of its index. -/
theorem StateOk.setNextBlockIndex (h : StateOk db key st) {v : Nat}
    {st' : IngestControllerState U} (hset : st.setNextBlockIndex v = .ok st') :
    StateOk db key st' := by
  obtain ⟨hidle, rfl⟩ := IngestControllerState.setNextBlockIndex_eq_ok_iff.1 hset
  refine ⟨h.invocation, fun hactive => ?_⟩
  rw [show ({ st with nextBlockIndex := v } : IngestControllerState U).mode = .idle from hidle]
    at hactive
  cases hactive

/-- The next index may move up to one still in range. -/
theorem StateOk.incrementNextBlockIndex (h : StateOk db key st) {st' : IngestControllerState U}
    (hinc : st.incrementNextBlockIndex = some st')
    (hr : db.InRange key (st.nextBlockIndex + 1)) : StateOk db key st' := by
  obtain ⟨-, rfl⟩ := IngestControllerState.incrementNextBlockIndex_eq_some_iff.1 hinc
  exact ⟨h.invocation, fun _ => hr⟩

/-- A new state is idle and holds no invocation. -/
theorem stateOk_new (window : Nat) (peers : SortedSet U) :
    StateOk db key (IngestControllerState.new window peers) where
  invocation _ h := by cases h
  active h := by cases h

/-- The state file a server writes keeps the promise of its state. -/
theorem fileOk_getIngestSummaryInner {ctl : IngestController K U R}
    (h : StateOk db ctl.ingressPubkey ctl.state) :
    FileOk db ctl.ingressPubkey (some ctl.getIngestSummaryInner) :=
  h.active

/-- An active server continues the chunks with the promise of its phase. -/
theorem phaseOk_continueChunks (hactive : st.mode = .active) {chunks : List (List Txo)}
    {globalTxoIndex : Nat} {txRows : List Rec} :
    PhaseOk db key st (continueChunks chunks globalTxoIndex txRows) := by
  cases chunks <;> exact hactive

/-- A phase whose promise holds may replace a server's phase. -/
theorem ServerOk.withPhase {s : IngestServer K U R E Txo Rec} (h : ServerOk db s)
    {p : Phase Txo Rec} (hp : PhaseOk db s.key s.state p) : ServerOk db { s with phase := p } :=
  ⟨h.state, hp, h.stateFile⟩

end Invariant

/-! ## A server's step keeps the invariant -/

namespace IngestServer

variable {K U R E Txo Rec : Type} [DecidableEq K] [LinearOrder U] [DecidableEq R]
  [ConnectionUri U R] (api : EnclaveApi E Txo Rec) (ledger : Nat → LedgerBlock Txo)
  {s : IngestServer K U R E Txo Rec} {outcome : Outcome} {db : SqlRecoveryDb K Rec}

/-- The database and a server after one of its steps keep the invariant. -/
def StepOk (r : IngestServer K U R E Txo Rec × SqlRecoveryDb K Rec) : Prop :=
  r.2.ScansContiguous ∧ ServerOk r.2 r.1

omit [DecidableEq K] in
/-- A transaction whose committed databases grow the database grows it. -/
theorem grows_transact {α : Type} {r : Except (DbError K) (α × SqlRecoveryDb K Rec)}
    (hr : ∀ a db', r = .ok (a, db') → db.Grows db') : db.Grows (transact outcome db r).1 :=
  transact_db_of (SqlRecoveryDb.Grows.refl db) hr

omit [DecidableEq R] [ConnectionUri U R] in
/-- A new invocation of the server's key, under any outcome, keeps the scans
contiguous and the server's invariant, and the id it returns may be held. -/
theorem newIngestInvocation_transact_ok (hc : db.ScansContiguous) (ho : ServerOk db s)
    (o : Outcome) (prev : Option Nat) (egress : KexRng.KexRngPubkey) (startBlock : Nat) :
    let r := transact o db (db.newIngestInvocation prev s.key egress startBlock)
    r.1.ScansContiguous ∧ ServerOk r.1 s ∧
      ∀ iid, r.2 = some iid → StateOk r.1 s.key (s.state.setIngestInvocationId (some iid)) := by
  intro r
  have hg : db.Grows r.1 := grows_transact fun _ _ h => SqlRecoveryDb.grows_newIngestInvocation h
  refine ⟨transact_db_of hc fun _ _ h => hc.newIngestInvocation h, ho.mono hg, fun iid hiid => ?_⟩
  have hinv := SqlRecoveryDb.ingestInvocations_newIngestInvocation (transact_eq_some hiid)
  exact (ho.mono hg).state.setIngestInvocationId fun i hi => by
    cases hi
    exact ⟨_, hinv, rfl⟩

omit [DecidableEq R] [ConnectionUri U R] in
/-- Setting a start block in range keeps the invariant. -/
theorem setStart_ok (ho : ServerOk db s) {startBlock : Nat}
    (hr : db.InRange s.key startBlock) : ServerOk db (s.setStart startBlock) := by
  unfold setStart
  split
  · rename_i st hset
    obtain ⟨-, rfl⟩ := IngestControllerState.setNextBlockIndex_eq_ok_iff.1 hset
    exact ⟨ho.state.setNextBlockIndex hset, hr, ho.stateFile⟩
  · exact ho.withPhase trivial

omit [DecidableEq R] [ConnectionUri U R] in
/-- Publishing a report keeps the invariant of an active server. -/
theorem publishReport_ok (hc : db.ScansContiguous) (ho : ServerOk db s)
    (hactive : s.state.mode = .active) : StepOk (s.publishReport outcome db) := by
  let r := transact outcome db (db.setReport s.key s.config.fogReportId s.reportData)
  have hg : db.Grows r.1 := grows_transact fun _ _ h => SqlRecoveryDb.grows_setReport h
  exact ⟨transact_db_of hc fun _ _ h => hc.setReport h, (ho.mono hg).withPhase hactive⟩

omit [DecidableEq R] [ConnectionUri U R] in
/-- The start block {lit}`activate` reads for an existing key is in range. -/
theorem readLastScanned_ok (hc : db.ScansContiguous) (ho : ServerOk db s)
    {status : IngressPublicKeyStatus}
    (hknown : ∃ status', db.tables.ingressKeys s.key = some status' ∧
      status'.startBlock = status.startBlock) :
    ServerOk db (s.readLastScanned status outcome db) := by
  unfold readLastScanned
  split
  · obtain ⟨status', hs', hstart⟩ := hknown
    have hr := SqlRecoveryDb.inRange_lastScanned hc hs'
    rw [hstart] at hr
    exact setStart_ok ho hr
  · exact ho.withPhase trivial

omit [DecidableEq R] [ConnectionUri U R] in
/-- Reading the highest known block keeps the invariant. -/
theorem readHighestKnown_ok (ho : ServerOk db s) {ledgerNumBlocks : Nat} :
    ServerOk db (s.readHighestKnown ledgerNumBlocks outcome db) := by
  unfold readHighestKnown
  split <;> exact ho.withPhase trivial

omit [DecidableEq R] [ConnectionUri U R] in
/-- A key the server created has its start block in range. -/
theorem createKey_ok (hc : db.ScansContiguous) (ho : ServerOk db s) {startBlock : Nat} :
    StepOk (s.createKey startBlock outcome db) := by
  let r := transact outcome db (.ok (db.newIngressKey s.key startBlock))
  have hg : db.Grows r.1 := grows_transact fun _ _ h => by
    cases h
    exact SqlRecoveryDb.grows_newIngressKey db s.key startBlock
  have hc' : r.1.ScansContiguous := transact_db_of hc fun _ _ h => by
    cases h
    exact hc.newIngressKey s.key startBlock
  unfold createKey
  dsimp only
  split
  · rename_i hcreated
    have hnew := transact_eq_some hcreated
    rw [Except.ok.injEq] at hnew
    have hr : r.1.InRange s.key startBlock := by
      have := SqlRecoveryDb.inRange_newIngressKey (congrArg Prod.fst hnew)
      rwa [hnew] at this
    exact ⟨hc', setStart_ok (ho.mono hg) hr⟩
  · exact ⟨hc', (ho.mono hg).withPhase trivial⟩

omit [DecidableEq R] [ConnectionUri U R] in
/-- A server becomes active only at a start block in range. -/
theorem finishActivation_ok (hc : db.ScansContiguous) (ho : ServerOk db s)
    (hpublish : db.InRange s.key s.state.nextBlockIndex) :
    StepOk (s.finishActivation outcome db) := by
  let r := transact outcome db (db.setReport s.key s.config.fogReportId s.reportData)
  have hg : db.Grows r.1 := grows_transact fun _ _ h => SqlRecoveryDb.grows_setReport h
  have hc' : r.1.ScansContiguous := transact_db_of hc fun _ _ h => hc.setReport h
  unfold finishActivation
  dsimp only
  split
  · exact ⟨hc', (ho.mono hg).withPhase trivial⟩
  · split
    · exact ⟨hc', (ho.mono hg).withPhase trivial⟩
    · have hst := (ho.mono hg).state.setActive (hpublish.mono hg)
      exact ⟨hc', hst, trivial, fileOk_getIngestSummaryInner hst⟩

omit [DecidableEq R] [ConnectionUri U R] in
/-- Starting the chunks of the next block keeps the invariant of an active
server. -/
theorem startChunks_ok (ho : ServerOk db s) (hactive : s.state.mode = .active) :
    ServerOk db (s.startChunks ledger) := by
  unfold startChunks
  dsimp only
  split
  · exact ho.withPhase (phaseOk_continueChunks hactive)
  · exact ho.withPhase trivial

omit [DecidableEq R] [ConnectionUri U R] in
/-- The invocation an active server creates is one of its key's. -/
theorem beginIngest_ok (hc : db.ScansContiguous) (ho : ServerOk db s)
    (hactive : s.state.mode = .active) : StepOk (s.beginIngest api ledger outcome db) := by
  unfold beginIngest
  split
  · exact ⟨hc, startChunks_ok ledger ho hactive⟩
  · obtain ⟨hc', ho', hst⟩ := newIngestInvocation_transact_ok hc ho outcome none
      (api.getKexRngPubkey s.enclave) s.state.nextBlockIndex
    dsimp only
    split
    · exact ⟨hc', ho'.withPhase trivial⟩
    · rename_i iid hiid
      exact ⟨hc', startChunks_ok ledger ⟨hst iid hiid, ho'.phase, ho'.stateFile⟩ hactive⟩

omit [DecidableEq R] [ConnectionUri U R] in
/-- After the report, going idle or beginning to ingest keeps the invariant. -/
theorem proceed_ok (hc : db.ScansContiguous) (ho : ServerOk db s)
    (hactive : s.state.mode = .active) {result : Option IngressPublicKeyStatus} :
    StepOk (s.proceed api ledger result outcome db) := by
  unfold proceed
  split
  · split
    · exact ⟨hc, ho.state.setIdle, trivial, ho.stateFile⟩
    · exact beginIngest_ok api ledger hc ho hactive
  · exact beginIngest_ok api ledger hc ho hactive

omit [DecidableEq R] [ConnectionUri U R] in
/-- Ingesting one chunk keeps the invariant of an active server. -/
theorem ingestChunk_ok (ho : ServerOk db s) (hactive : s.state.mode = .active)
    {chunk : List Txo} {chunks : List (List Txo)} {globalTxoIndex : Nat} {txRows : List Rec} :
    ServerOk db (s.ingestChunk api ledger chunk chunks globalTxoIndex txRows outcome) := by
  unfold ingestChunk
  dsimp only
  split
  · exact ho.withPhase trivial
  · exact ⟨ho.state, trivial, ho.stateFile⟩
  · split
    · exact ⟨ho.state, trivial, ho.stateFile⟩
    · exact ⟨ho.state, phaseOk_continueChunks hactive, ho.stateFile⟩
    · exact ⟨ho.state, hactive, ho.stateFile⟩

omit [DecidableEq R] [ConnectionUri U R] in
/-- The invocation that replaces the held one is one of the key's too. -/
theorem rotate_ok (hc : db.ScansContiguous) (ho : ServerOk db s)
    (hactive : s.state.mode = .active) {kexRngPubkey : KexRng.KexRngPubkey}
    {chunks : List (List Txo)} {globalTxoIndex : Nat} {txRows : List Rec} :
    StepOk (s.rotate kexRngPubkey chunks globalTxoIndex txRows outcome db) := by
  unfold rotate
  split
  · exact ⟨hc, ho.withPhase trivial⟩
  · rename_i iid _
    obtain ⟨hc', ho', hst⟩ := newIngestInvocation_transact_ok hc ho outcome (some iid)
      kexRngPubkey s.state.nextBlockIndex
    dsimp only
    split
    · exact ⟨hc', ho'⟩
    · rename_i newIid hnewIid
      exact ⟨hc', hst newIid hnewIid, phaseOk_continueChunks hactive, ho'.stateFile⟩

omit [DecidableEq R] [ConnectionUri U R] in
/-- The block an active server adds is the one after its key's interval, and a
won race moves its index to the new end. -/
theorem addBlock_ok (hc : db.ScansContiguous) (ho : ServerOk db s)
    (hactive : s.state.mode = .active) {txRows : List Rec} :
    StepOk (s.addBlock txRows outcome db) := by
  unfold addBlock
  split
  · exact ⟨hc, ho.withPhase trivial⟩
  · rename_i iid hiid
    obtain ⟨inv, hinv, hkey⟩ := ho.state.invocation iid hiid
    have hrange : db.InRange inv.ingressPublicKey s.state.nextBlockIndex :=
      hkey ▸ ho.state.active hactive
    have hadd : ∀ scanned db', db.addBlockData iid s.state.nextBlockIndex txRows = .ok (scanned, db') →
        db'.ScansContiguous ∧ (scanned = false → db'.InRange s.key (s.state.nextBlockIndex + 1)) :=
      fun _ _ h => hkey ▸ hc.addBlockData hinv hrange h
    let r := transact outcome db (db.addBlockData iid s.state.nextBlockIndex txRows)
    have hg : db.Grows r.1 := grows_transact fun _ _ h => SqlRecoveryDb.grows_addBlockData h
    have hc' : r.1.ScansContiguous := transact_db_of hc fun _ _ h => (hadd _ _ h).1
    dsimp only
    split
    · exact ⟨hc', ho.mono hg⟩
    · exact ⟨hc', (ho.mono hg).state.setIdle, trivial, (ho.mono hg).stateFile⟩
    · rename_i hwon
      have hr : r.1.InRange s.key (s.state.nextBlockIndex + 1) := (hadd _ _ (transact_eq_some hwon)).2 rfl
      split
      · exact ⟨hc', (ho.mono hg).withPhase trivial⟩
      · rename_i st hinc
        have hst := (ho.mono hg).state.incrementNextBlockIndex hinc hr
        exact ⟨hc', hst, trivial, fileOk_getIngestSummaryInner hst⟩

omit [DecidableEq R] [ConnectionUri U R] in
/-- Decommissioning runs only while idle and leaves no invocation held. -/
theorem decommission_ok (hc : db.ScansContiguous) (ho : ServerOk db s) :
    StepOk (s.decommission api outcome db) := by
  unfold decommission
  split
  · exact ⟨hc, ho.withPhase trivial⟩
  · rename_i hidle
    have hidle : s.state.mode = .idle := not_not.1 hidle
    have hst : ∀ db' : SqlRecoveryDb K Rec,
        StateOk db' s.key (s.state.setIngestInvocationId none) := by
      intro db'
      refine ⟨fun _ h => (by cases h), fun hactive => ?_⟩
      rw [show (s.state.setIngestInvocationId none).mode = .idle from hidle] at hactive
      cases hactive
    dsimp only
    split
    · exact ⟨hc, hst db, trivial, fileOk_getIngestSummaryInner (hst db)⟩
    · rename_i iid _
      have hc' : (transact outcome db ((db.decommissionIngestInvocation iid).map
          fun db => ((), db))).1.ScansContiguous := transact_db_of hc fun _ _ h => by
        obtain ⟨db', hdec, hpair⟩ := Except.map_eq_ok.1 h
        cases hpair
        exact hc.decommissionIngestInvocation hdec
      exact ⟨hc', hst _, trivial, fileOk_getIngestSummaryInner (hst _)⟩

omit [DecidableEq R] [ConnectionUri U R] in
/-- A step of a server keeps the scans contiguous and the server's invariant. -/
theorem step_ok (hc : db.ScansContiguous) (ho : ServerOk db s) :
    StepOk (s.step api ledger outcome db) := by
  have hphase := ho.phase
  unfold step
  split
  · split
    · rename_i hactive
      exact publishReport_ok hc ho hactive
    · exact ⟨hc, ho⟩
  all_goals rename_i heq; rw [heq] at hphase
  · exact ⟨hc, readLastScanned_ok hc ho hphase⟩
  · exact ⟨hc, readHighestKnown_ok ho⟩
  · exact createKey_ok hc ho
  · exact finishActivation_ok hc ho hphase
  · exact proceed_ok api ledger hc ho hphase
  · exact ⟨hc, ho.withPhase hphase⟩
  · exact ⟨hc, ingestChunk_ok api ledger ho hphase⟩
  · exact rotate_ok hc ho hphase
  · exact addBlock_ok hc ho hphase
  · exact decommission_ok api hc ho
  · exact ⟨hc, ho⟩

/-- {lit}`activate` reads the key's status into its phase. -/
theorem activate_ok (ho : ServerOk db s) {ledgerNumBlocks : Nat} {env : Environment K U} :
    ServerOk db (s.activate ledgerNumBlocks env outcome db) := by
  unfold activate
  split
  · split
    · exact ho
    · split
      · exact ho
      · split
        · exact ho.withPhase trivial
        · exact ho
        · split
          · split
            · rename_i status hstatus
              exact ho.withPhase ⟨status, hstatus, rfl⟩
            · exact ho.withPhase trivial
          · exact ho
  · exact ho

omit [DecidableEq R] [ConnectionUri U R] in
/-- A fresh process that wrote its state file keeps the invariant. -/
theorem fresh_writeStateFile_ok : ServerOk db ((s.fresh api).writeStateFile) :=
  have hst : StateOk db s.key (IngestControllerState.new s.config.pubkeyExpiryWindow s.config.peers) :=
    stateOk_new _ _
  ⟨hst, trivial, fileOk_getIngestSummaryInner hst⟩

/-- A restart resumes at the index of an active state file, which is in range. -/
theorem restart_ok (ho : ServerOk db s) {env : Environment K U} :
    ServerOk db (s.restart api env) := by
  unfold restart
  split
  · exact fresh_writeStateFile_ok api
  · rename_i summary hfile
    have hfileOk : FileOk db s.key (some summary) := hfile ▸ ho.stateFile
    split
    · rename_i ctl hrestore
      obtain ⟨hkey, hiid, hmode, hnext⟩ := restoreStateFromSummary_eq_ok hrestore
      have hst : StateOk db ctl.ingressPubkey ctl.state := by
        refine ⟨fun _ h => ?_, fun hactive => ?_⟩
        · rw [hiid] at h
          cases h
        · rw [hnext, hkey]
          exact hfileOk (hmode ▸ hactive)
      exact ⟨hst, trivial, fileOk_getIngestSummaryInner hst⟩
    · exact ⟨stateOk_new _ _, trivial, ho.stateFile⟩

end IngestServer

/-! ## Every run of the cluster keeps the invariant -/

namespace World

variable {K U R E Txo Rec : Type} [DecidableEq K] [LinearOrder U] [DecidableEq R]
  [ConnectionUri U R] (api : EnclaveApi E Txo Rec) (ledger : Nat → LedgerBlock Txo)
  {w : World K U R E Txo Rec}

/-- The scans are contiguous and every server keeps its invariant. -/
structure WorldOk (w : World K U R E Txo Rec) : Prop where
  db : w.db.ScansContiguous
  servers : ∀ i, ServerOk w.db (w.servers i)

omit [DecidableEq R] [ConnectionUri U R] in
/-- One server's change keeps the others' invariants, as the database grows. -/
theorem WorldOk.update (hw : WorldOk w) {i : Nat} {s : IngestServer K U R E Txo Rec}
    {db : SqlRecoveryDb K Rec} (hc : db.ScansContiguous) (hs : ServerOk db s)
    (hg : w.db.Grows db) : WorldOk (w.update i s db) := by
  refine ⟨hc, fun j => ?_⟩
  by_cases hj : j = i
  · subst hj
    simpa using hs
  · simpa [hj] using (hw.servers j).mono hg

/-- Every event keeps the invariant. -/
theorem WorldOk.step (hw : WorldOk w) (e : Event K U) : WorldOk (step api ledger w e) := by
  cases e with
  | step i outcome =>
      have hr : IngestServer.StepOk ((w.servers i).step api ledger outcome w.db) :=
        IngestServer.step_ok api ledger hw.db (hw.servers i)
      exact hw.update hr.1 hr.2 (IngestServer.step_db api ledger).grows
  | activate i ledgerNumBlocks env outcome =>
      exact hw.update hw.db (IngestServer.activate_ok (hw.servers i)) (.refl _)
  | restart i env =>
      exact hw.update hw.db (IngestServer.restart_ok api (hw.servers i)) (.refl _)
  | retire key setRetired =>
      exact ⟨hw.db.retireIngressKey key setRetired, fun j =>
        (hw.servers j).mono (SqlRecoveryDb.grows_retireIngressKey _ _ _)⟩

omit [DecidableEq R] [ConnectionUri U R] in
/-- A new deployment satisfies the invariant. -/
theorem worldOk_new (servers : Nat → IngestServer K U R E Txo Rec) :
    WorldOk (new api servers) :=
  ⟨SqlRecoveryDb.scansContiguous_empty, fun _ => IngestServer.fresh_writeStateFile_ok api⟩

/-- Every run from a new deployment keeps the invariant. -/
theorem worldOk_run (servers : Nat → IngestServer K U R E Txo Rec) (events : List (Event K U)) :
    WorldOk (run api ledger (new api servers) events) :=
  invariant_run api ledger (fun _ e hw => hw.step api ledger e) events (worldOk_new api servers)

/-- In every run from a new deployment, the blocks scanned with a key that
exists form, in the order they were inserted, the interval from its start
block. -/
theorem scannedBlocks_contiguous_run (servers : Nat → IngestServer K U R E Txo Rec)
    (events : List (Event K U)) (k : K) (status : IngressPublicKeyStatus)
    (h : (run api ledger (new api servers) events).db.getIngressKeyStatus k = some status) :
    ∃ n, (run api ledger (new api servers) events).db.tables.scannedBlocks k =
      List.range' status.startBlock n :=
  ⟨_, (worldOk_run api ledger servers events).db.contiguous k status h⟩

/-- In every run from a new deployment, an invocation a server holds is one of
its own key, and an active server's next block lies between its key's start
block and the block after the last one scanned with the key: the block it adds
next is either already scanned or the one that extends the interval. -/
theorem servers_in_range_run (servers : Nat → IngestServer K U R E Txo Rec)
    (events : List (Event K U)) (i : Nat) :
    let w := run api ledger (new api servers) events
    (∀ iid, (w.servers i).state.ingestInvocationId = some iid → ∃ inv,
        w.db.tables.ingestInvocations iid = some inv ∧ inv.ingressPublicKey = (w.servers i).key) ∧
      ((w.servers i).state.mode = .active → ∃ status,
        w.db.tables.ingressKeys (w.servers i).key = some status ∧
          status.startBlock ≤ (w.servers i).state.nextBlockIndex ∧
          (w.servers i).state.nextBlockIndex ≤
            status.startBlock + (w.db.tables.scannedBlocks (w.servers i).key).length) := by
  intro w
  have hs : ServerOk w.db (w.servers i) := (worldOk_run api ledger servers events).servers i
  exact ⟨hs.state.invocation, hs.state.active⟩

end World

/-- Server 0 activates a new key at block 0 and scans block 0. -/
def activateAndScanBlock : List (Event Nat Nat) :=
  .activate 0 0 exampleEnv .succeeds :: List.replicate 8 (.step 0 .succeeds)

/-- After server 0 activates key 7 at block 0 and steps, the key starts at block 0
and its scanned blocks are an initial range from block 0. -/
theorem scannedBlocks_contiguous_run_oneBlock :
    (World.run exampleApi exampleLedger (World.new exampleApi exampleServers)
        activateAndScanBlock).db.getIngressKeyStatus 7 = some ⟨0, 0, false, false⟩ ∧
      ∃ n, (World.run exampleApi exampleLedger (World.new exampleApi exampleServers)
        activateAndScanBlock).db.tables.scannedBlocks 7 = List.range' 0 n :=
  ⟨by decide, World.scannedBlocks_contiguous_run exampleApi exampleLedger exampleServers
    activateAndScanBlock 7 ⟨0, 0, false, false⟩ (by decide)⟩

end Ingest
end Fog
