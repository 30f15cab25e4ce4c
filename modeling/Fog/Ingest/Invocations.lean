import Fog.Ingest.Retirement
import Fog.RecoveryDb.IngestableRanges
import Fog.RecoveryDb.Queries

/-!
# Invocations ingest from their start block, and stop for good

An ingest invocation is created by the server that then holds it, at the
server's next block.  Only that server adds blocks under it, each at its next
block and while the invocation is live.  The server gives the invocation up by
decommissioning it: in {lit}`new_egress_key`, or when a new egress key replaces
it.  Across the whole cluster, then:

- no two servers hold one invocation;
- every block an invocation ingested lies at or after its start block;
- a decommissioned invocation ingests nothing more.

A client reading {lit}`get_ingestable_ranges` relies on exactly this: a range
that cannot provide a block never will, whatever happens after the read.

The invariant of one server, {lit}`Holds`, says in which phases a server may
hold an invocation.  A step of a server changes, among the invocations that
exist, only the one it holds ({lit}`Touches`).  With the holders distinct, a
step of one server keeps the others' invariants.

Main results:

- Theorem {lit}`World.invocationsOk_run`: every run of the cluster keeps the
  invariant.
- Theorem {lit}`World.settled_run`: from any reachable state on, every
  invocation keeps its start block, and a decommissioned one keeps its blocks.
-/

namespace Fog
namespace Ingest

open RecoveryDb

/-! ## The invocations under the transactions -/

namespace DbStep

variable {K Rec : Type} [DecidableEq K] {key : K} {db db' : SqlRecoveryDb K Rec}

/-- Every step of a server keeps the ids bounded. -/
theorem idsBounded (h : DbStep key db db') (hb : db.tables.IdsBounded) : db'.tables.IdsBounded := by
  cases h with
  | refl => exact hb
  | setReport h => exact (SqlRecoveryDb.invocationsSame_setReport h).idsBounded hb
  | newIngressKey startBlock =>
      exact (SqlRecoveryDb.invocationsSame_newIngressKey db key startBlock).idsBounded hb
  | newIngestInvocation h =>
      exact hb.newIngestInvocation (SqlRecoveryDb.newIngestInvocation_tables h)
  | addBlockData h =>
      obtain ⟨hinv, hlast, -⟩ := SqlRecoveryDb.addBlockData_invocations h
      exact hb.of_eq hinv hlast
  | decommissionIngestInvocation h =>
      exact hb.decommissionIngestInvocation (SqlRecoveryDb.decommissionIngestInvocation_tables h)

/-- Every step of a server keeps the invocations' start blocks, and
decommissions only. -/
theorem invocationsKept (h : DbStep key db db') : db.tables.InvocationsKept db'.tables := by
  cases h with
  | refl => exact .refl _
  | setReport h => exact (SqlRecoveryDb.invocationsSame_setReport h).kept
  | newIngressKey startBlock =>
      exact (SqlRecoveryDb.invocationsSame_newIngressKey db key startBlock).kept
  | newIngestInvocation h => exact .newIngestInvocation (SqlRecoveryDb.newIngestInvocation_tables h)
  | addBlockData h => exact .of_eq (SqlRecoveryDb.addBlockData_invocations h).1
  | decommissionIngestInvocation h =>
      exact .decommissionIngestInvocation (SqlRecoveryDb.decommissionIngestInvocation_tables h)

end DbStep

section Touches

variable {K Rec : Type}

/-- A row of {lit}`ingested_blocks` whose invocation is live and starts at or
before the row's block. -/
def LiveRow (db : SqlRecoveryDb K Rec) (row : IngestedBlockRow K) : Prop :=
  ∃ inv, db.tables.ingestInvocations row.ingestInvocationId = some inv ∧
    inv.decommissioned = false ∧ inv.startBlock ≤ row.blockNumber

/-- What a transaction of a server that holds {lit}`held` may do: change, among
the invocations that exist, only the one it holds, and append rows of live
invocations. -/
structure Touches (held : Option Nat) (db db' : SqlRecoveryDb K Rec) : Prop where
  others : ∀ iid, held ≠ some iid → (db.tables.ingestInvocations iid).isSome →
    db'.tables.ingestInvocations iid = db.tables.ingestInvocations iid
  appends : ∃ rows, db'.tables.ingestedBlocks = db.tables.ingestedBlocks ++ rows ∧
    ∀ row ∈ rows, LiveRow db row

variable {held : Option Nat} {db db' : SqlRecoveryDb K Rec}

/-- Writing nothing touches nothing. -/
theorem Touches.refl (held : Option Nat) (db : SqlRecoveryDb K Rec) : Touches held db db :=
  ⟨fun _ _ _ => rfl, [], by simp, by simp⟩

/-- A transaction that leaves the invocations alone touches nothing. -/
theorem Touches.of_same (h : SqlRecoveryDb.InvocationsSame db db') : Touches held db db' :=
  ⟨fun _ _ _ => by rw [h.invocations], [], by simp [h.blocks], by simp⟩

/-- A transaction whose commits touch only the server's own invocation does so
under any outcome. -/
theorem Touches.transact {α : Type} {outcome : Outcome}
    {r : Except (DbError K) (α × SqlRecoveryDb K Rec)}
    (hr : ∀ a db', r = .ok (a, db') → Touches held db db') :
    Touches held db (transact outcome db r).1 :=
  transact_db_of (Touches.refl held db) hr

/-- A decommission changes only the invocation it names. -/
theorem touches_decommissionIngestInvocation {id : Nat}
    (h : db.decommissionIngestInvocation id = .ok db') : Touches (some id) db db' := by
  have htables := SqlRecoveryDb.decommissionIngestInvocation_tables h
  obtain ⟨hinv, -⟩ := IngestDb.decommissionIngestInvocation_invocations htables
  refine ⟨fun iid hne _ => ?_, [], ?_, by simp⟩
  · have hne' : iid ≠ id := fun h => hne (h ▸ rfl)
    rw [hinv, Function.update_of_ne hne']
  · rw [(IngestDb.decommissionIngestInvocation_frame htables).2, List.append_nil]

/-- A new invocation changes only the one it decommissions among those that
exist. -/
theorem touches_newIngestInvocation {prev : Option Nat} {key : K} {egress : KexRng.KexRngPubkey}
    {startBlock id : Nat} (h : db.newIngestInvocation prev key egress startBlock = .ok (id, db')) :
    Touches prev db db' := by
  have htables := SqlRecoveryDb.newIngestInvocation_tables h
  obtain ⟨hfree, hother⟩ := IngestDb.newIngestInvocation_invocations htables
  refine ⟨fun iid hne hsome => hother iid ?_ hne, [], ?_, by simp⟩
  · rintro rfl
    rw [hfree] at hsome
    cases hsome
  · rw [(IngestDb.newIngestInvocation_frame htables).2, List.append_nil]

/-- Adding a block of a live invocation appends a live row and changes no
invocation. -/
theorem touches_addBlockData [DecidableEq K] {id blockIndex : Nat} {records : List Rec}
    {scanned : Bool}
    (h : db.addBlockData id blockIndex records = .ok (scanned, db'))
    (hlive : ∃ inv, db.tables.ingestInvocations id = some inv ∧ inv.decommissioned = false ∧
      inv.startBlock ≤ blockIndex) :
    Touches held db db' := by
  obtain ⟨hinv, -, inv, -, hblocks⟩ := SqlRecoveryDb.addBlockData_invocations h
  refine ⟨fun _ _ _ => by rw [hinv], ?_⟩
  rcases hblocks with hblocks | hblocks
  · exact ⟨[], by simp [hblocks], by simp⟩
  · refine ⟨_, hblocks, fun row hrow => ?_⟩
    rw [List.mem_singleton] at hrow
    subst hrow
    exact hlive

end Touches

/-! ## What a server promises of the invocation it holds -/

section Holding

variable {K U R E Txo Rec : Type} [LinearOrder U]

/-- The phases in which a server may hold an invocation, by whether it is
decommissioned and by the server's mode: none of {lit}`activate`'s; a block in
flight only while the invocation is live, and between blocks only while the
server is active too; once decommissioned, only the retried rotation, the
decommissioning or a halt. -/
def HoldingPhase (decommissioned : Bool) (mode : IngestMode) : Phase Txo Rec → Prop
  | .ready => decommissioned = false ∧ mode = .active
  | .reported _ | .ingesting _ _ _ | .adding _ => decommissioned = false
  | .rotating _ _ _ _ | .decommissioning | .halted => True
  | .activatingKnown _ | .activatingNew _ | .activatingCreate _ | .activatingPublish => False

/-- The invariant of one server: the invocation it holds exists, starts at or
before the server's next block, and the server is in a phase a holder may be
in. -/
def Holds (db : SqlRecoveryDb K Rec) (s : IngestServer K U R E Txo Rec) : Prop :=
  ∀ iid, s.state.ingestInvocationId = some iid →
    ∃ inv, db.tables.ingestInvocations iid = some inv ∧ inv.startBlock ≤ s.state.nextBlockIndex ∧
      HoldingPhase inv.decommissioned s.state.mode s.phase

variable {db db' : SqlRecoveryDb K Rec} {s : IngestServer K U R E Txo Rec}

/-- A server that holds nothing keeps the invariant. -/
theorem holds_of_none (h : s.state.ingestInvocationId = none) : Holds db s := by
  intro iid hiid
  rw [h] at hiid
  cases hiid

/-- Continuing the chunks is a phase a holder of a live invocation may be in. -/
theorem holdingPhase_continueChunks {mode : IngestMode} {chunks : List (List Txo)}
    {globalTxoIndex : Nat} {txRows : List Rec} :
    HoldingPhase false mode (continueChunks chunks globalTxoIndex txRows) := by
  cases chunks <;> rfl

/-- A server in a phase no holder is in holds nothing. -/
theorem Holds.eq_none (h : Holds db s)
    (hp : ∀ d, ¬HoldingPhase d s.state.mode s.phase) : s.state.ingestInvocationId = none := by
  cases hiid : s.state.ingestInvocationId with
  | none => rfl
  | some iid =>
      obtain ⟨inv, -, -, hphase⟩ := h iid hiid
      exact absurd hphase (hp _)

/-- A server with the same state in another phase a holder may be in. -/
theorem Holds.of_phase (h : Holds db s) {s' : IngestServer K U R E Txo Rec}
    (hstate : s'.state = s.state)
    (hp : ∀ d, HoldingPhase d s.state.mode s.phase → HoldingPhase d s.state.mode s'.phase) :
    Holds db s' := by
  intro iid hiid
  rw [hstate] at hiid ⊢
  obtain ⟨inv, hinv, hstart, hphase⟩ := h iid hiid
  exact ⟨inv, hinv, hstart, hp _ hphase⟩

/-- A transaction that leaves the invocations alone keeps what a server holds.
-/
theorem Holds.of_invocations_eq (h : Holds db s)
    (heq : db'.tables.ingestInvocations = db.tables.ingestInvocations) : Holds db' s := by
  intro iid hiid
  rw [heq]
  exact h iid hiid

/-- Another server's transaction leaves the invocation a server holds alone. -/
theorem Holds.of_touches (h : Holds db s) {held : Option Nat} (ht : Touches held db db')
    (hne : ∀ iid, s.state.ingestInvocationId = some iid → held ≠ some iid) : Holds db' s := by
  intro iid hiid
  obtain ⟨inv, hinv, hstart, hphase⟩ := h iid hiid
  refine ⟨inv, ?_, hstart, hphase⟩
  rw [ht.others iid (hne iid hiid) (by simp [hinv]), hinv]

/-- What one step of a server does, seen from the invocations: it touches only
its own, it keeps its invocation, drops it or takes a new one, and it keeps
its invariant. -/
structure StepHolds (s : IngestServer K U R E Txo Rec) (db : SqlRecoveryDb K Rec)
    (r : IngestServer K U R E Txo Rec × SqlRecoveryDb K Rec) : Prop where
  touches : Touches s.state.ingestInvocationId db r.2
  held : r.1.state.ingestInvocationId = s.state.ingestInvocationId ∨
    r.1.state.ingestInvocationId = none ∨
    ∃ iid, r.1.state.ingestInvocationId = some iid ∧ db.tables.ingestInvocations iid = none
  holds : Holds r.2 r.1

/-- A step that changes neither the database nor the invocation held. -/
theorem StepHolds.of_db {s' : IngestServer K U R E Txo Rec}
    (hheld : s'.state.ingestInvocationId = s.state.ingestInvocationId) (h : Holds db s') :
    StepHolds s db (s', db) :=
  ⟨Touches.refl _ db, .inl hheld, h⟩

/-- A step of a server that holds nothing and takes nothing. -/
theorem StepHolds.of_none {r : IngestServer K U R E Txo Rec × SqlRecoveryDb K Rec}
    (hs : s.state.ingestInvocationId = none) (hr : r.1.state.ingestInvocationId = none)
    (ht : Touches none db r.2) : StepHolds s db r :=
  ⟨hs ▸ ht, .inr (.inl hr), holds_of_none hr⟩

end Holding

/-! ## A server's step keeps its promise -/

namespace IngestServer

section Step

variable {K U R E Txo Rec : Type} [LinearOrder U]
  (api : EnclaveApi E Txo Rec) (ledger : Nat → LedgerBlock Txo)
  {s : IngestServer K U R E Txo Rec} {outcome : Outcome} {db : SqlRecoveryDb K Rec}

/-! ### The steps of {lit}`activate`: nothing held, nothing taken -/

/-- Setting the start block takes no invocation. -/
theorem setStart_held {startBlock : Nat} :
    (s.setStart startBlock).state.ingestInvocationId = s.state.ingestInvocationId := by
  unfold setStart
  split
  · rename_i st hset
    obtain ⟨-, rfl⟩ := IngestControllerState.setNextBlockIndex_eq_ok_iff.1 hset
    rfl
  · rfl

/-- Reading the last scanned block takes no invocation. -/
theorem readLastScanned_held [DecidableEq K] {status : IngressPublicKeyStatus} :
    (s.readLastScanned status outcome db).state.ingestInvocationId = s.state.ingestInvocationId := by
  unfold readLastScanned
  split
  · exact setStart_held
  · rfl

/-- Reading the highest known block takes no invocation. -/
theorem readHighestKnown_held {ledgerNumBlocks : Nat} :
    (s.readHighestKnown ledgerNumBlocks outcome db).state.ingestInvocationId =
      s.state.ingestInvocationId := by
  unfold readHighestKnown
  split <;> rfl

/-- Creating a key takes no invocation. -/
theorem createKey_held [DecidableEq K] {startBlock : Nat} :
    (s.createKey startBlock outcome db).1.state.ingestInvocationId = s.state.ingestInvocationId := by
  unfold createKey
  dsimp only
  split
  · exact setStart_held
  · rfl

/-- Finishing the activation takes no invocation. -/
theorem finishActivation_held [DecidableEq K] :
    (s.finishActivation outcome db).1.state.ingestInvocationId = s.state.ingestInvocationId := by
  unfold finishActivation
  dsimp only
  split
  · rfl
  · split <;> rfl

/-- Creating a key touches no invocation. -/
theorem createKey_touches [DecidableEq K] {startBlock : Nat} :
    Touches none db (s.createKey startBlock outcome db).2 := by
  have ht : Touches none db (transact outcome db (.ok (db.newIngressKey s.key startBlock))).1 :=
    Touches.transact fun _ _ h => by
      cases h
      exact .of_same (SqlRecoveryDb.invocationsSame_newIngressKey db s.key startBlock)
  unfold createKey
  dsimp only
  split <;> exact ht

/-- Finishing the activation touches no invocation. -/
theorem finishActivation_touches [DecidableEq K] :
    Touches none db (s.finishActivation outcome db).2 := by
  have ht : Touches none db
      (transact outcome db (db.setReport s.key s.config.fogReportId s.reportData)).1 :=
    Touches.transact fun _ _ h => .of_same (SqlRecoveryDb.invocationsSame_setReport h)
  unfold finishActivation
  dsimp only
  split
  · exact ht
  · split <;> exact ht

/-- A step of {lit}`activate`: the server holds nothing, and takes nothing. -/
theorem activating_holds {r : IngestServer K U R E Txo Rec × SqlRecoveryDb K Rec}
    (h : Holds db s) (hp : ∀ d, ¬HoldingPhase d s.state.mode s.phase)
    (hheld : r.1.state.ingestInvocationId = s.state.ingestInvocationId) (ht : Touches none db r.2) :
    StepHolds s db r :=
  .of_none (h.eq_none hp) (hheld.trans (h.eq_none hp)) ht

/-! ### The steps of {lit}`process_next_block` -/

/-- Publishing a report keeps what a ready server holds. -/
theorem publishReport_holds [DecidableEq K] (h : Holds db s) (hready : s.phase = .ready) :
    StepHolds s db (s.publishReport outcome db) := by
  let r := transact outcome db (db.setReport s.key s.config.fogReportId s.reportData)
  have hsame : SqlRecoveryDb.InvocationsSame db r.1 :=
    transact_db_of ⟨rfl, rfl, rfl⟩ fun _ _ h => SqlRecoveryDb.invocationsSame_setReport h
  refine ⟨.of_same hsame, .inl rfl, ?_⟩
  refine (h.of_invocations_eq hsame.invocations).of_phase rfl fun d hd => ?_
  rw [hready] at hd
  exact hd.1

/-- Starting the chunks leaves the state alone. -/
theorem startChunks_state : (s.startChunks ledger).state = s.state := by
  unfold startChunks
  dsimp only
  split <;> rfl

/-- A holder that starts a block's chunks holds a live invocation. -/
theorem startChunks_holds (h : Holds db s)
    (hp : ∀ d, HoldingPhase d s.state.mode s.phase → d = false) :
    Holds db (s.startChunks ledger) := by
  refine h.of_phase (startChunks_state ledger) fun d hd => ?_
  unfold startChunks
  dsimp only
  split
  · rw [hp d hd]
    exact holdingPhase_continueChunks
  · trivial

/-- The invocation held, or a new one at the next block. -/
theorem beginIngest_holds (h : Holds db s)
    (hp : ∀ d, HoldingPhase d s.state.mode s.phase ↔ d = false) :
    StepHolds s db (s.beginIngest api ledger outcome db) := by
  unfold beginIngest
  split
  · exact .of_db (by rw [startChunks_state]) (startChunks_holds ledger h fun d => (hp d).1)
  · rename_i hnone
    have ht : Touches s.state.ingestInvocationId db (transact outcome db (db.newIngestInvocation
        none s.key (api.getKexRngPubkey s.enclave) s.state.nextBlockIndex)).1 := by
      rw [hnone]
      exact Touches.transact fun _ _ h => touches_newIngestInvocation h
    dsimp only
    split
    · exact ⟨ht, .inr (.inl hnone), holds_of_none hnone⟩
    · rename_i iid hiid
      have hnew := transact_eq_some hiid
      have hinv := SqlRecoveryDb.ingestInvocations_newIngestInvocation hnew
      have hfree :=
        (IngestDb.newIngestInvocation_invocations (SqlRecoveryDb.newIngestInvocation_tables hnew)).1
      refine ⟨ht, .inr (.inr ⟨iid, by rw [startChunks_state]; rfl, hfree⟩), ?_⟩
      refine startChunks_holds ledger (fun i hi => ?_) fun d => (hp d).1
      cases hi
      exact ⟨_, hinv, le_rfl, (hp false).2 rfl⟩

/-- After the report, going idle or beginning to ingest keeps what the server
holds. -/
theorem proceed_holds (h : Holds db s) {result : Option IngressPublicKeyStatus}
    (hreported : s.phase = .reported result) :
    StepHolds s db (s.proceed api ledger result outcome db) := by
  have hp : ∀ d, HoldingPhase d s.state.mode s.phase ↔ d = false := fun d => by
    rw [hreported]
    exact Iff.rfl
  unfold proceed
  split
  · split
    · refine .of_db rfl fun iid hiid => ?_
      obtain ⟨inv, hinv, hstart, -⟩ := h iid hiid
      exact ⟨inv, hinv, hstart, trivial⟩
    · exact beginIngest_holds api ledger h hp
  · exact beginIngest_holds api ledger h hp

/-- Ingesting a chunk leaves the state alone. -/
theorem ingestChunk_state {chunk : List Txo} {chunks : List (List Txo)} {globalTxoIndex : Nat}
    {txRows : List Rec} :
    (s.ingestChunk api ledger chunk chunks globalTxoIndex txRows outcome).state = s.state := by
  unfold ingestChunk
  dsimp only
  split
  · rfl
  · rfl
  · split <;> rfl

/-- A chunk leaves the invocation live: the block goes on, waits for the next
try, or waits for the rotation. -/
theorem ingestChunk_holds (h : Holds db s) {chunk : List Txo} {chunks : List (List Txo)}
    {globalTxoIndex : Nat} {txRows : List Rec}
    (hingesting : s.phase = .ingesting (chunk :: chunks) globalTxoIndex txRows)
    (hactive : s.state.mode = .active) :
    Holds db (s.ingestChunk api ledger chunk chunks globalTxoIndex txRows outcome) := by
  refine h.of_phase (ingestChunk_state api ledger) fun d hd => ?_
  rw [hingesting] at hd
  have hready : HoldingPhase d s.state.mode (.ready : Phase Txo Rec) := ⟨hd, hactive⟩
  unfold ingestChunk
  dsimp only
  split
  · exact hready
  · exact hready
  · split
    · exact hready
    · rw [hd]
      exact holdingPhase_continueChunks
    · trivial

/-- The rotation decommissions the invocation held and takes a new one; a
failed try keeps the old one, decommissioned or not. -/
theorem rotate_holds (h : Holds db s) {kexRngPubkey : KexRng.KexRngPubkey}
    {chunks : List (List Txo)} {globalTxoIndex : Nat} {txRows : List Rec}
    (hrotating : s.phase = .rotating kexRngPubkey chunks globalTxoIndex txRows) :
    StepHolds s db (s.rotate kexRngPubkey chunks globalTxoIndex txRows outcome db) := by
  have hrot : ∀ d, HoldingPhase d s.state.mode s.phase := fun d => by
    rw [hrotating]
    trivial
  unfold rotate
  split
  · rename_i hnone
    exact .of_db rfl (holds_of_none hnone)
  · rename_i iid hiid
    let r := transact outcome db
      (db.newIngestInvocation (some iid) s.key kexRngPubkey s.state.nextBlockIndex)
    have ht : Touches s.state.ingestInvocationId db r.1 := by
      rw [hiid]
      exact Touches.transact fun _ _ h => touches_newIngestInvocation h
    have hkept : db.tables.InvocationsKept r.1.tables :=
      transact_db_of (IngestDb.InvocationsKept.refl _) fun _ _ h =>
        IngestDb.InvocationsKept.newIngestInvocation (SqlRecoveryDb.newIngestInvocation_tables h)
    dsimp only
    split
    · refine ⟨ht, .inl rfl, fun i hi => ?_⟩
      obtain ⟨inv, hinv, hstart, -⟩ := h i hi
      obtain ⟨inv', hinv', hstart', -⟩ := hkept i inv hinv
      exact ⟨inv', hinv', hstart' ▸ hstart, hrot _⟩
    · rename_i newIid hnewIid
      have hnew := transact_eq_some hnewIid
      have hinv := SqlRecoveryDb.ingestInvocations_newIngestInvocation hnew
      have hfree :=
        (IngestDb.newIngestInvocation_invocations (SqlRecoveryDb.newIngestInvocation_tables hnew)).1
      refine ⟨ht, .inr (.inr ⟨newIid, rfl, hfree⟩), fun i hi => ?_⟩
      cases hi
      exact ⟨_, hinv, le_rfl, holdingPhase_continueChunks⟩

/-- The block is added under a live invocation that starts at or before it; a
won race moves the server on, still holding a live invocation. -/
theorem addBlock_holds [DecidableEq K] (h : Holds db s) {txRows : List Rec}
    (hadding : s.phase = .adding txRows) : StepHolds s db (s.addBlock txRows outcome db) := by
  have hp : ∀ d, HoldingPhase d s.state.mode s.phase → d = false := fun d hd => by
    rw [hadding] at hd
    exact hd
  unfold addBlock
  split
  · rename_i hnone
    exact .of_db rfl (holds_of_none hnone)
  · rename_i iid hiid
    obtain ⟨inv, hinv, hstart, hphase⟩ := h iid hiid
    let r := transact outcome db (db.addBlockData iid s.state.nextBlockIndex txRows)
    have ht : Touches s.state.ingestInvocationId db r.1 :=
      Touches.transact fun _ _ h => touches_addBlockData h ⟨inv, hinv, hp _ hphase, hstart⟩
    have heq : r.1.tables.ingestInvocations = db.tables.ingestInvocations :=
      transact_db_of (P := fun db' : SqlRecoveryDb K Rec =>
        db'.tables.ingestInvocations = db.tables.ingestInvocations) rfl
        fun _ _ h => (SqlRecoveryDb.addBlockData_invocations h).1
    have hs : Holds r.1 s := h.of_invocations_eq heq
    dsimp only
    split
    · exact ⟨ht, .inl rfl, hs⟩
    · refine ⟨ht, .inl rfl, fun i hi => ?_⟩
      obtain ⟨inv', hinv', hstart', -⟩ := hs i hi
      exact ⟨inv', hinv', hstart', trivial⟩
    · split
      · exact ⟨ht, .inl rfl, hs.of_phase rfl fun _ _ => trivial⟩
      · rename_i st hinc
        obtain ⟨hactive, rfl⟩ := IngestControllerState.incrementNextBlockIndex_eq_some_iff.1 hinc
        refine ⟨ht, .inl rfl, fun i hi => ?_⟩
        obtain ⟨inv', hinv', hstart', hphase'⟩ := hs i hi
        exact ⟨inv', hinv', Nat.le_succ_of_le hstart', hp _ hphase', hactive⟩

/-- Decommissioning gives the invocation up. -/
theorem decommission_holds (h : Holds db s) : StepHolds s db (s.decommission api outcome db) := by
  unfold decommission
  split
  · exact .of_db rfl (h.of_phase rfl fun _ _ => trivial)
  · dsimp only
    split
    · rename_i hnone
      exact .of_none hnone rfl (.refl _ _)
    · rename_i iid hiid
      refine ⟨?_, .inr (.inl rfl), holds_of_none rfl⟩
      rw [hiid]
      exact Touches.transact fun _ _ h => by
        obtain ⟨db', hdec, hpair⟩ := Except.map_eq_ok.1 h
        cases hpair
        exact touches_decommissionIngestInvocation hdec

/-- A step of a server keeps its promise and touches only its own invocation. -/
theorem step_holds [DecidableEq K] (h : Holds db s) (hphase : PhaseOk db s.key s.state s.phase) :
    StepHolds s db (s.step api ledger outcome db) := by
  unfold step
  split
  · split
    · rename_i hready _
      exact publishReport_holds h hready
    · exact .of_db rfl h
  all_goals rename_i heq
  · exact activating_holds h (by rw [heq]; exact fun _ => id) readLastScanned_held (.refl _ _)
  · exact activating_holds h (by rw [heq]; exact fun _ => id) readHighestKnown_held (.refl _ _)
  · exact activating_holds h (by rw [heq]; exact fun _ => id) createKey_held createKey_touches
  · exact activating_holds h (by rw [heq]; exact fun _ => id) finishActivation_held
      finishActivation_touches
  · exact proceed_holds api ledger h heq
  · exact .of_db rfl (h.of_phase rfl fun d hd => by rw [heq] at hd; exact hd)
  · rw [heq] at hphase
    exact .of_db (by rw [ingestChunk_state]) (ingestChunk_holds api ledger h heq hphase)
  · exact rotate_holds h heq
  · exact addBlock_holds h heq
  · exact decommission_holds api h
  · exact .of_db rfl h

/-- When the reply of a rotation that committed is lost, the server is left as
it was, and the loop around {lit}`new_ingest_invocation` never ends: every later
try, whatever its outcome, fails on the egress key already recorded and leaves
the server and the database as they are. -/
theorem rotate_retries_fail {kexRngPubkey : KexRng.KexRngPubkey} {chunks : List (List Txo)}
    {globalTxoIndex : Nat} {txRows : List Rec} {iid newIid : Nat} {db' db'' : SqlRecoveryDb K Rec}
    (hiid : s.state.ingestInvocationId = some iid)
    (hnew : db.newIngestInvocation (some iid) s.key kexRngPubkey s.state.nextBlockIndex =
      .ok (newIid, db'))
    (hg : db'.Grows db'') :
    s.rotate kexRngPubkey chunks globalTxoIndex txRows .failsAfter db = (s, db') ∧
      ∀ outcome, s.rotate kexRngPubkey chunks globalTxoIndex txRows outcome db'' = (s, db'') := by
  have hrecorded : (newIid, kexRngPubkey) ∈ db''.egressPublicKeys :=
    hg.egressPublicKeys.subset (SqlRecoveryDb.mem_egressPublicKeys_newIngestInvocation hnew)
  have hfail := SqlRecoveryDb.newIngestInvocation_of_mem_egressPublicKeys hrecorded (some iid) s.key
    s.state.nextBlockIndex
  refine ⟨?_, fun outcome => ?_⟩
  · unfold rotate
    rw [hiid]
    simp only [transact, hnew]
  · unfold rotate
    rw [hiid]
    simp only [transact, hfail]

end Step

/-- A server of key 7, active at block 0, that holds invocation 1 and has the
new egress key {lit}`[1]` to record. -/
def rotatingServer : IngestServer Nat Nat Nat Unit Unit Nat :=
  { config := ⟨"", 1, 0, SortedSet.ofList []⟩
    controller := ⟨0, { IngestControllerState.new 0 (SortedSet.ofList []) with
      mode := .active
      ingestInvocationId := some 1 }, 7⟩
    enclave := ()
    phase := .rotating ⟨[1], 0⟩ [] 0 []
    stateFile := none }

/-- Invocation 1 of key 7 rotates: the new invocation 2 commits, the reply is
lost, and every retry from there fails. -/
theorem rotate_retries_fail_keySeven :
    ∃ db', SqlRecoveryDb.keySevenInvocationOne.newIngestInvocation (some 1) 7 ⟨[1], 0⟩ 0 =
        .ok (2, db') ∧
      rotatingServer.rotate ⟨[1], 0⟩ [] 0 [] .failsAfter SqlRecoveryDb.keySevenInvocationOne =
        (rotatingServer, db') ∧
      ∀ outcome, rotatingServer.rotate ⟨[1], 0⟩ [] 0 [] outcome db' = (rotatingServer, db') := by
  have hok : (SqlRecoveryDb.keySevenInvocationOne.newIngestInvocation (some 1) 7 ⟨[1], 0⟩
      0).toOption.map Prod.fst = some 2 := by decide
  obtain ⟨db', hnew⟩ := Except.exists_eq_ok_of_toOption hok
  exact ⟨db', hnew, rotate_retries_fail rfl hnew (SqlRecoveryDb.Grows.refl _)⟩

section Calls

variable {K U R E Txo Rec : Type} [DecidableEq K] [LinearOrder U] [DecidableEq R]
  [ConnectionUri U R] (api : EnclaveApi E Txo Rec)
  {s : IngestServer K U R E Txo Rec} {outcome : Outcome} {db : SqlRecoveryDb K Rec}

/-- {lit}`activate` leaves the state alone. -/
theorem activate_state {ledgerNumBlocks : Nat} {env : Environment K U} :
    (s.activate ledgerNumBlocks env outcome db).state = s.state := by
  unfold activate
  repeat' split
  all_goals rfl

/-- {lit}`activate` returns at once on a server that holds an invocation: it is
active, or busy. -/
theorem activate_holds (h : Holds db s) {ledgerNumBlocks : Nat} {env : Environment K U} :
    StepHolds s db (s.activate ledgerNumBlocks env outcome db, db) := by
  cases hiid : s.state.ingestInvocationId with
  | none => exact .of_none hiid (by rw [activate_state, hiid]) (.refl _ _)
  | some iid =>
      obtain ⟨inv, -, -, hphase⟩ := h iid hiid
      have hself : s.activate ledgerNumBlocks env outcome db = s := by
        unfold activate
        split
        · rename_i hready
          rw [hready] at hphase
          exact if_pos hphase.2
        · rfl
      rw [hself]
      exact .of_db rfl h

/-- A restart forgets the invocation: the state file does not restore it. -/
theorem restart_held {env : Environment K U} :
    (s.restart api env).state.ingestInvocationId = none := by
  unfold restart
  split
  · rfl
  · split
    · rename_i ctl hrestore
      exact (restoreStateFromSummary_eq_ok hrestore).2.1
    · rfl

/-- A restart keeps the invariant: the server holds nothing after it. -/
theorem restart_holds {env : Environment K U} : StepHolds s db (s.restart api env, db) :=
  ⟨Touches.refl _ db, .inr (.inl (restart_held api)), holds_of_none (restart_held api)⟩

end Calls

end IngestServer

/-! ## Settled invocations -/

section Settled

variable {K Rec : Type}

/-- From {lit}`db` to {lit}`db'`, every invocation keeps its start block, the
sequence does not go back, and a decommissioned invocation keeps its blocks. -/
structure Settled (db db' : SqlRecoveryDb K Rec) : Prop where
  kept : db.tables.InvocationsKept db'.tables
  lastId : db.tables.lastIngestInvocationId ≤ db'.tables.lastIngestInvocationId
  frozen : ∀ iid inv, db.tables.ingestInvocations iid = some inv → inv.decommissioned = true →
    db'.tables.invocationBlocks iid = db.tables.invocationBlocks iid

/-- Every database is settled from itself. -/
theorem Settled.refl (db : SqlRecoveryDb K Rec) : Settled db db :=
  ⟨.refl _, le_rfl, fun _ _ _ _ => rfl⟩

/-- Settling is transitive. -/
theorem Settled.trans {db db' db'' : SqlRecoveryDb K Rec} (h : Settled db db')
    (h' : Settled db' db'') : Settled db db'' := by
  refine ⟨h.kept.trans h'.kept, h.lastId.trans h'.lastId, fun iid inv hinv hdec => ?_⟩
  obtain ⟨inv', hinv', -, hdec'⟩ := h.kept iid inv hinv
  rw [h'.frozen iid inv' hinv' (hdec' hdec), h.frozen iid inv hinv hdec]

/-- A transaction that appends only rows of live invocations leaves the blocks
of a decommissioned one alone. -/
theorem Settled.of_touches {db db' : SqlRecoveryDb K Rec} {held : Option Nat}
    (hk : db.tables.InvocationsKept db'.tables)
    (hl : db.tables.lastIngestInvocationId ≤ db'.tables.lastIngestInvocationId)
    (ht : Touches held db db') : Settled db db' := by
  refine ⟨hk, hl, fun iid inv hinv hdec => ?_⟩
  obtain ⟨rows, hrows, hlive⟩ := ht.appends
  refine IngestDb.invocationBlocks_of_append hrows fun row hrow hid => ?_
  obtain ⟨inv', hinv', hlive', -⟩ := hlive row hrow
  rw [hid, hinv, Option.some.injEq] at hinv'
  subst hinv'
  rw [hdec] at hlive'
  cases hlive'

end Settled

/-! ## Every run of the cluster keeps the invariant -/

namespace World

variable {K U R E Txo Rec : Type} [DecidableEq K] [LinearOrder U] [DecidableEq R]
  [ConnectionUri U R] (api : EnclaveApi E Txo Rec) (ledger : Nat → LedgerBlock Txo)
  {w : World K U R E Txo Rec}

/-- The invariant of the invocations: their ids come from the sequence, every
block lies at or after its invocation's start, every server keeps its
promise, and no two servers hold one invocation. -/
structure InvocationsOk (w : World K U R E Txo Rec) : Prop where
  ids : w.db.tables.IdsBounded
  blocks : ∀ row ∈ w.db.tables.ingestedBlocks, ∃ inv,
    w.db.tables.ingestInvocations row.ingestInvocationId = some inv ∧
      inv.startBlock ≤ row.blockNumber
  holds : ∀ i, Holds w.db (w.servers i)
  unique : ∀ i j iid, (w.servers i).state.ingestInvocationId = some iid →
    (w.servers j).state.ingestInvocationId = some iid → i = j

omit [DecidableEq K] [LinearOrder U] [DecidableEq R] [ConnectionUri U R] in
/-- The rows appended are of live invocations, and every invocation keeps its
start block: each row still lies at or after its invocation's start. -/
theorem blocks_of_touches {db db' : SqlRecoveryDb K Rec} {held : Option Nat}
    (hb : ∀ row ∈ db.tables.ingestedBlocks, ∃ inv,
      db.tables.ingestInvocations row.ingestInvocationId = some inv ∧
        inv.startBlock ≤ row.blockNumber)
    (ht : Touches held db db') (hk : db.tables.InvocationsKept db'.tables) :
    ∀ row ∈ db'.tables.ingestedBlocks, ∃ inv,
      db'.tables.ingestInvocations row.ingestInvocationId = some inv ∧
        inv.startBlock ≤ row.blockNumber := by
  obtain ⟨rows, hrows, hlive⟩ := ht.appends
  intro row hrow
  have hold : ∃ inv, db.tables.ingestInvocations row.ingestInvocationId = some inv ∧
      inv.startBlock ≤ row.blockNumber := by
    rw [hrows, List.mem_append] at hrow
    rcases hrow with hrow | hrow
    · exact hb row hrow
    · obtain ⟨inv, hinv, -, hstart⟩ := hlive row hrow
      exact ⟨inv, hinv, hstart⟩
  obtain ⟨inv, hinv, hstart⟩ := hold
  obtain ⟨inv', hinv', hstart', -⟩ := hk _ inv hinv
  exact ⟨inv', hinv', hstart' ▸ hstart⟩

omit [DecidableEq K] [DecidableEq R] [ConnectionUri U R] in
/-- Another server holds neither what a stepping server held nor what it takes. -/
theorem InvocationsOk.held_ne (hw : InvocationsOk w) {i : Nat} {s : IngestServer K U R E Txo Rec}
    {db : SqlRecoveryDb K Rec} (hs : StepHolds (w.servers i) w.db (s, db)) {j iid : Nat}
    (hji : j ≠ i) (hj : (w.servers j).state.ingestInvocationId = some iid) :
    (w.servers i).state.ingestInvocationId ≠ some iid ∧
      s.state.ingestInvocationId ≠ some iid := by
  refine ⟨fun hi => hji (hw.unique j i iid hj hi), fun hsi => ?_⟩
  rcases hs.held with hsame | hnone | ⟨iid', hiid', hfree⟩
  · exact hji (hw.unique j i iid hj (hsame ▸ hsi))
  · rw [hnone] at hsi
    cases hsi
  · rw [hiid', Option.some.injEq] at hsi
    obtain ⟨inv, hinv, -⟩ := hw.holds j iid hj
    rw [← hsi, hfree] at hinv
    cases hinv

omit [DecidableEq R] [ConnectionUri U R] in
/-- One server's step keeps the invariant of the cluster. -/
theorem InvocationsOk.update (hw : InvocationsOk w) {i : Nat} {s : IngestServer K U R E Txo Rec}
    {db : SqlRecoveryDb K Rec} (hs : StepHolds (w.servers i) w.db (s, db))
    (hdb : DbStep (w.servers i).key w.db db) : InvocationsOk (w.update i s db) := by
  refine ⟨hdb.idsBounded hw.ids, blocks_of_touches hw.blocks hs.touches hdb.invocationsKept,
    fun j => ?_, fun j j' iid hj hj' => ?_⟩
  · by_cases hji : j = i
    · subst hji
      simpa using hs.holds
    · rw [update_servers_of_ne _ _ _ hji]
      exact (hw.holds j).of_touches hs.touches fun iid hiid => (hw.held_ne hs hji hiid).1
  · by_cases hji : j = i <;> by_cases hj'i : j' = i
    · rw [hji, hj'i]
    · subst hji
      rw [update_servers_self] at hj
      rw [update_servers_of_ne _ _ _ hj'i] at hj'
      exact absurd hj (hw.held_ne hs hj'i hj').2
    · subst hj'i
      rw [update_servers_self] at hj'
      rw [update_servers_of_ne _ _ _ hji] at hj
      exact absurd hj' (hw.held_ne hs hji hj).2
    · rw [update_servers_of_ne _ _ _ hji] at hj
      rw [update_servers_of_ne _ _ _ hj'i] at hj'
      exact hw.unique j j' iid hj hj'

/-- Every event keeps the invariant. -/
theorem InvocationsOk.step (hok : WorldOk w) (hw : InvocationsOk w) (e : Event K U) :
    InvocationsOk (step api ledger w e) := by
  cases e with
  | step i outcome =>
      exact hw.update (IngestServer.step_holds api ledger (hw.holds i) (hok.servers i).phase)
        (IngestServer.step_db api ledger)
  | activate i ledgerNumBlocks env outcome =>
      exact hw.update (IngestServer.activate_holds (hw.holds i)) .refl
  | restart i env => exact hw.update (IngestServer.restart_holds api) .refl
  | retire key setRetired =>
      have hsame := SqlRecoveryDb.invocationsSame_retireIngressKey w.db key setRetired
      have ht : Touches none w.db (w.db.retireIngressKey key setRetired) := .of_same hsame
      exact ⟨hsame.idsBounded hw.ids, blocks_of_touches hw.blocks ht hsame.kept,
        fun j => (hw.holds j).of_invocations_eq hsame.invocations, hw.unique⟩

omit [DecidableEq K] [DecidableEq R] [ConnectionUri U R] in
/-- A new deployment satisfies the invariant of the invocations. -/
theorem invocationsOk_new (servers : Nat → IngestServer K U R E Txo Rec) :
    InvocationsOk (new api servers) where
  ids := IngestDb.idsBounded_empty
  blocks _ h := by cases h
  holds _ := holds_of_none rfl
  unique _ _ _ h := by cases h

/-- Every run from a new deployment keeps the invariant of the invocations. -/
theorem invocationsOk_run (servers : Nat → IngestServer K U R E Txo Rec)
    (events : List (Event K U)) : InvocationsOk (run api ledger (new api servers) events) :=
  (invariant_run api ledger (P := fun w => WorldOk w ∧ InvocationsOk w)
    (fun _ e hw => ⟨hw.1.step api ledger e, hw.2.step api ledger hw.1 e⟩) events
    ⟨worldOk_new api servers, invocationsOk_new api servers⟩).2

/-- Every event settles the invocations of a state that keeps the invariant. -/
theorem settled_step (hok : WorldOk w) (hw : InvocationsOk w) (e : Event K U) :
    Settled w.db (step api ledger w e).db := by
  cases e with
  | step i outcome =>
      have hdb : DbStep (w.servers i).key w.db ((w.servers i).step api ledger outcome w.db).2 :=
        IngestServer.step_db api ledger
      exact .of_touches hdb.invocationsKept hdb.grows.tables.lastId
        (IngestServer.step_holds api ledger (hw.holds i) (hok.servers i).phase).touches
  | activate i ledgerNumBlocks env outcome => exact .refl _
  | restart i env => exact .refl _
  | retire key setRetired =>
      have hsame := SqlRecoveryDb.invocationsSame_retireIngressKey w.db key setRetired
      have ht : Touches none w.db (w.db.retireIngressKey key setRetired) := .of_same hsame
      exact .of_touches hsame.kept hsame.lastId.ge ht

/-- From any state that keeps the invariant, every run settles the
invocations: their start blocks stay, and a decommissioned invocation's blocks
stay as they are. -/
theorem settled_run (hok : WorldOk w) (hw : InvocationsOk w) (events : List (Event K U)) :
    Settled w.db (run api ledger w events).db := by
  induction events generalizing w with
  | nil => exact .refl _
  | cons e events ih =>
      exact (settled_step api ledger hok hw e).trans
        (ih (hok.step api ledger e) (hw.step api ledger hok e))

/-- Along every run from a new deployment, each state settles the invocations of
every earlier one. -/
theorem settled_run_append (servers : Nat → IngestServer K U R E Txo Rec)
    (events events' : List (Event K U)) :
    Settled (run api ledger (new api servers) events).db
      (run api ledger (new api servers) (events ++ events')).db := by
  rw [run_append]
  exact settled_run api ledger (worldOk_run api ledger servers events)
    (invocationsOk_run api ledger servers events) events'

/-- A range read in any run stays true after the read: every block its
invocation ingested, then or later, is one the range says it can provide. -/
theorem canProvideBlock_run (servers : Nat → IngestServer K U R E Txo Rec)
    (events events' : List (Event K U)) {r : IngestableRange}
    (hr : r ∈ (run api ledger (new api servers) events).db.getIngestableRanges) {block : Nat}
    (hb : block ∈
      (run api ledger (new api servers) (events ++ events')).db.tables.invocationBlocks r.id) :
    r.canProvideBlock block = true := by
  have hset := settled_run_append api ledger servers events events'
  have hok := invocationsOk_run api ledger servers (events ++ events')
  obtain ⟨-, -, row, hrow, hstart, hdec, hlast⟩ := SqlRecoveryDb.mem_getIngestableRanges.1 hr
  obtain ⟨brow, hbrow, hid, rfl⟩ := IngestDb.mem_invocationBlocks.1 hb
  obtain ⟨inv, hinv, hle⟩ := hok.blocks brow hbrow
  obtain ⟨inv', hinv', hstart', -⟩ := hset.kept r.id row hrow
  rw [hid, hinv', Option.some.injEq] at hinv
  subst hinv
  refine (IngestableRange.canProvideBlock_eq_true_iff r _).2 ⟨?_, fun hd => ?_⟩
  · rw [hstart, ← hstart']
    exact hle
  · rw [hset.frozen r.id row hrow (hdec.symm.trans hd)] at hb
    obtain ⟨l, hl⟩ := Option.isSome_iff_exists.1 (List.isSome_max?_of_mem hb)
    exact ⟨l, hlast.trans hl, (List.max?_eq_some_iff.1 hl).2 _ hb⟩

/-- After its first block, the key of server 0 is retired: the server publishes,
leaves, and decommissions its invocation. -/
def retireAndLeave : List (Event Nat Nat) :=
  [.retire 7 true, .step 0 .succeeds, .step 0 .succeeds, .step 0 .succeeds]

/-- The range of invocation 1 read after block 0 provides block 0, which it
still holds after the key is retired. -/
theorem canProvideBlock_run_retired :
    (⟨1, 0, false, some 0⟩ : IngestableRange) ∈
        (run exampleApi exampleLedger (new exampleApi exampleServers)
          activateAndScanBlock).db.getIngestableRanges ∧
      0 ∈ (run exampleApi exampleLedger (new exampleApi exampleServers)
          (activateAndScanBlock ++ retireAndLeave)).db.tables.invocationBlocks 1 ∧
      (⟨1, 0, false, some 0⟩ : IngestableRange).canProvideBlock 0 = true := by
  have hr : (⟨1, 0, false, some 0⟩ : IngestableRange) ∈
      (run exampleApi exampleLedger (new exampleApi exampleServers)
        activateAndScanBlock).db.getIngestableRanges := by decide
  have hb : 0 ∈ (run exampleApi exampleLedger (new exampleApi exampleServers)
      (activateAndScanBlock ++ retireAndLeave)).db.tables.invocationBlocks 1 := by decide
  exact ⟨hr, hb, canProvideBlock_run exampleApi exampleLedger exampleServers activateAndScanBlock
    retireAndLeave hr hb⟩

/-- A decommissioned range is final: every later read returns it as it is. -/
theorem decommissioned_range_run (servers : Nat → IngestServer K U R E Txo Rec)
    (events events' : List (Event K U)) {r : IngestableRange}
    (hr : r ∈ (run api ledger (new api servers) events).db.getIngestableRanges)
    (hd : r.decommissioned = true) :
    r ∈ (run api ledger (new api servers) (events ++ events')).db.getIngestableRanges := by
  have hset := settled_run_append api ledger servers events events'
  obtain ⟨h1, h2, row, hrow, hstart, hdec, hlast⟩ := SqlRecoveryDb.mem_getIngestableRanges.1 hr
  have hrowdec : row.decommissioned = true := hdec.symm.trans hd
  obtain ⟨row', hrow', hstart', hdec'⟩ := hset.kept r.id row hrow
  refine SqlRecoveryDb.mem_getIngestableRanges.2 ⟨h1, h2.trans hset.lastId, row', hrow',
    hstart.trans hstart'.symm, hd.trans (hdec' hrowdec).symm, ?_⟩
  rw [hset.frozen r.id row hrow hrowdec]
  exact hlast

/-- The range of invocation 1, decommissioned when its key retired, is read
back the same after server 0 is activated again. -/
theorem decommissioned_range_run_retired :
    (⟨1, 0, true, some 0⟩ : IngestableRange) ∈
        (run exampleApi exampleLedger (new exampleApi exampleServers)
          (activateAndScanBlock ++ retireAndLeave)).db.getIngestableRanges ∧
      (⟨1, 0, true, some 0⟩ : IngestableRange).decommissioned = true ∧
      (⟨1, 0, true, some 0⟩ : IngestableRange) ∈
        (run exampleApi exampleLedger (new exampleApi exampleServers)
          ((activateAndScanBlock ++ retireAndLeave) ++
            [.activate 0 1 exampleEnv .succeeds])).db.getIngestableRanges := by
  have hr : (⟨1, 0, true, some 0⟩ : IngestableRange) ∈
      (run exampleApi exampleLedger (new exampleApi exampleServers)
        (activateAndScanBlock ++ retireAndLeave)).db.getIngestableRanges := by decide
  exact ⟨hr, rfl, decommissioned_range_run exampleApi exampleLedger exampleServers
    (activateAndScanBlock ++ retireAndLeave) [.activate 0 1 exampleEnv .succeeds] hr rfl⟩

/-- In every run, {lit}`get_ingestable_ranges` reads every invocation, once and in
increasing order of id. -/
theorem getIngestableRanges_run (servers : Nat → IngestServer K U R E Txo Rec)
    (events : List (Event K U)) :
    let db := (run api ledger (new api servers) events).db
    (∀ iid, (∃ r ∈ db.getIngestableRanges, r.id = iid) ↔
      (db.tables.ingestInvocations iid).isSome) ∧
      db.getIngestableRanges.Pairwise fun r r' => r.id < r'.id :=
  ⟨SqlRecoveryDb.exists_mem_getIngestableRanges_iff (invocationsOk_run api ledger servers events).ids,
    SqlRecoveryDb.pairwise_getIngestableRanges _⟩

/-- In every run, the invocation a server holds is held by no other server,
starts at or before the server's next block, and is live unless the server
retries a rotation, decommissions it or is halted. -/
theorem held_invocation_run (servers : Nat → IngestServer K U R E Txo Rec)
    (events : List (Event K U)) (i iid : Nat) :
    let w := run api ledger (new api servers) events
    (w.servers i).state.ingestInvocationId = some iid →
      (∀ j, (w.servers j).state.ingestInvocationId = some iid → j = i) ∧
        ∃ inv, w.db.tables.ingestInvocations iid = some inv ∧
          inv.startBlock ≤ (w.servers i).state.nextBlockIndex ∧
          HoldingPhase inv.decommissioned (w.servers i).state.mode (w.servers i).phase := by
  intro w hi
  have hw : InvocationsOk w := invocationsOk_run api ledger servers events
  exact ⟨fun j hj => hw.unique j i iid hj hi, hw.holds i iid hi⟩

/-- Server 0 holds invocation 1 after its first block, alone, live and started
at block 0. -/
theorem held_invocation_run_oneBlock :
    let w := run exampleApi exampleLedger (new exampleApi exampleServers) activateAndScanBlock
    (w.servers 0).state.ingestInvocationId = some 1 ∧
      (∀ j, (w.servers j).state.ingestInvocationId = some 1 → j = 0) ∧
        ∃ inv, w.db.tables.ingestInvocations 1 = some inv ∧
          inv.startBlock ≤ (w.servers 0).state.nextBlockIndex ∧
          HoldingPhase inv.decommissioned (w.servers 0).state.mode (w.servers 0).phase := by
  intro w
  have h : (w.servers 0).state.ingestInvocationId = some 1 := by decide
  have hheld := held_invocation_run exampleApi exampleLedger exampleServers activateAndScanBlock 0 1 h
  exact ⟨h, hheld⟩

end World

end Ingest
end Fog
