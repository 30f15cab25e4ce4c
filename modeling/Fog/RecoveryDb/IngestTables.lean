import Fog.RecoveryDb.UserEvents
import Mathlib.Logic.Function.Basic

/-!
# The ingest tables of the recovery database

The tables that ingest servers and operators write ({lit}`ingress_keys`,
{lit}`ingest_invocations`, {lit}`ingested_blocks`, {lit}`user_events`) and the
operations of {lit}`SqlRecoveryDb` in {lit}`fog/sql_recovery_db/src/lib.rs` that
write them, with the constraints of the initial migration that these
operations can meet: the primary key of {lit}`ingress_keys`, the foreign keys
from invocations, blocks and user events, the uniqueness of
{lit}`(ingress_public_key, block_number)` and of
{lit}`(ingest_invocation_id, block_number)` in {lit}`ingested_blocks`, and the
uniqueness of {lit}`new_ingest_invocation_id`,
{lit}`decommission_ingest_invocation_id` and
{lit}`(missing_blocks_start, missing_blocks_end)` in {lit}`user_events`.  A
uniqueness constraint over nullable columns holds only among rows where they
are all present, as in PostgreSQL.

Each operation is one transaction and runs atomically: it either commits
all its statements or fails with the database unchanged.  Timestamps
({lit}`last_active_at`), egress keys, RNG versions, block signature timestamps,
transaction counts and encrypted records are not read by any modelled
operation and are left out.

Main results:

- Structure {lit}`IngestDb.Grows`: the tables only grow: keys keep their start
  block and never lower their expiry, invocations keep their key, and blocks
  and user events are only appended.
- Theorems {lit}`IngestDb.grows_newIngressKey`,
  {lit}`IngestDb.grows_newIngestInvocation`, {lit}`IngestDb.grows_addBlockData`
  and their kind: every operation grows the tables.
- Theorem {lit}`IngestDb.addBlockData_eq_ok_iff`: exactly what
  {lit}`add_block_data` does, including the two uniqueness constraints it
  reports as a block already scanned.
-/

namespace Fog
namespace RecoveryDb

/-- The diesel errors the modelled statements can end with: a query that
found no row, and the two kinds of constraint violation. -/
inductive OrmError
  | notFound
  | uniqueViolation
  | foreignKeyViolation
deriving DecidableEq, Repr

/-- The variants of the recovery database's {lit}`Error` that its ingest
operations return: a failed statement, a lost connection, and the key a
statement needed but did not find. -/
inductive DbError (K : Type)
  | orm (err : OrmError)
  | connection
  | missingIngressKey (key : K)
deriving DecidableEq, Repr

/-- A row of {lit}`ingest_invocations`, as far as the ingest operations read
it. -/
structure IngestInvocationRow (K : Type) where
  ingressPublicKey : K
  startBlock : Nat
  decommissioned : Bool
deriving DecidableEq, Repr

/-- A row of {lit}`ingested_blocks`, as far as the ingest operations read it. -/
structure IngestedBlockRow (K : Type) where
  ingressPublicKey : K
  ingestInvocationId : Nat
  blockNumber : Nat
deriving DecidableEq, Repr

/-- The ingest tables. -/
structure IngestDb (K : Type) where
  /-- {lit}`ingress_keys`, by its primary key. -/
  ingressKeys : K → Option IngressPublicKeyStatus
  /-- {lit}`ingest_invocations`, by id. -/
  ingestInvocations : Nat → Option (IngestInvocationRow K)
  /-- The last value of the {lit}`BIGSERIAL` sequence of invocation ids. -/
  lastIngestInvocationId : Nat
  ingestedBlocks : List (IngestedBlockRow K)
  /-- {lit}`user_events`, in id order. -/
  userEvents : List UserEvent
  /-- The last value of the {lit}`BIGSERIAL` sequence of user event ids. -/
  lastUserEventId : Nat

namespace IngestDb

variable {K : Type} [DecidableEq K]

/-- The empty database of a new deployment. -/
def empty : IngestDb K :=
  ⟨fun _ => none, fun _ => none, 0, [], [], 0⟩

/-! ## User events -/

/-- Whether a new user event row conflicts with a row already in the table on
one of the three uniqueness constraints. -/
def conflictsWith (e e' : NewUserEvent) : Bool :=
  (e.newIngestInvocationId.isSome && e.newIngestInvocationId == e'.newIngestInvocationId) ||
    (e.decommissionIngestInvocationId.isSome &&
      e.decommissionIngestInvocationId == e'.decommissionIngestInvocationId) ||
    (e.missingBlocksStart.isSome && e.missingBlocksEnd.isSome &&
      e.missingBlocksStart == e'.missingBlocksStart && e.missingBlocksEnd == e'.missingBlocksEnd)

/-- Whether the invocations a new user event row refers to exist. -/
def referencesExist (db : IngestDb K) (e : NewUserEvent) : Bool :=
  (e.newIngestInvocationId.all fun id => (db.ingestInvocations id).isSome) &&
    (e.decommissionIngestInvocationId.all fun id => (db.ingestInvocations id).isSome)

/-- Insert a user event row with the next id, unless a foreign key or a
uniqueness constraint refuses it. -/
def insertUserEvent (db : IngestDb K) (e : NewUserEvent) : Except (DbError K) (IngestDb K) :=
  if !db.referencesExist e then .error (.orm .foreignKeyViolation)
  else if db.userEvents.any (fun row => conflictsWith e row.event) then
    .error (.orm .uniqueViolation)
  else
    .ok { db with
      userEvents := db.userEvents ++ [⟨db.lastUserEventId + 1, e⟩]
      lastUserEventId := db.lastUserEventId + 1 }

omit [DecidableEq K] in
/-- An inserted user event is appended, and nothing else changes. -/
theorem insertUserEvent_eq_ok {db db' : IngestDb K} {e : NewUserEvent}
    (h : db.insertUserEvent e = .ok db') :
    db' = { db with
      userEvents := db.userEvents ++ [⟨db.lastUserEventId + 1, e⟩]
      lastUserEventId := db.lastUserEventId + 1 } := by
  unfold insertUserEvent at h
  split at h
  · cases h
  · split at h
    · cases h
    · exact (Except.ok.inj h).symm

/-- The event of a missing block range conflicts exactly with a row of the same
range. -/
theorem conflictsWith_missingBlocks {r : BlockRange} {e : NewUserEvent}
    (he : NewUserEvent.missingBlocks r = some e) (e' : NewUserEvent) :
    conflictsWith e e' = true ↔
      e'.missingBlocksStart = some r.startBlock ∧ e'.missingBlocksEnd = some r.endBlock := by
  unfold NewUserEvent.missingBlocks at he
  split at he
  · cases he
    simp only [conflictsWith, Option.isSome_none, Option.isSome_some, Bool.false_and,
      Bool.true_and, Bool.false_or, Bool.and_eq_true, beq_iff_eq]
    constructor
    · rintro ⟨h₁, h₂⟩
      exact ⟨h₁.symm, h₂.symm⟩
    · rintro ⟨h₁, h₂⟩
      exact ⟨h₁.symm, h₂.symm⟩
  · cases he

/-! ## Ingress keys -/

/-- {lit}`get_ingress_key_status`. -/
def getIngressKeyStatus (db : IngestDb K) (key : K) : Option IngressPublicKeyStatus :=
  db.ingressKeys key

/-- {lit}`new_ingress_key`: insert the key with no expiry, not retired, not lost,
unless it exists ({lit}`ON CONFLICT DO NOTHING`); whether a row was inserted. -/
def newIngressKey (db : IngestDb K) (key : K) (startBlock : Nat) : Bool × IngestDb K :=
  match db.ingressKeys key with
  | some _ => (false, db)
  | none =>
      (true, { db with
        ingressKeys := Function.update db.ingressKeys key
          (some { startBlock, pubkeyExpiry := 0, retired := false, lost := false }) })

/-- {lit}`retire_ingress_key`: set or clear the retired flag of the key, if it
exists. -/
def retireIngressKey (db : IngestDb K) (key : K) (setRetired : Bool) : IngestDb K :=
  { db with
    ingressKeys := Function.update db.ingressKeys key
      ((db.ingressKeys key).map fun s => { s with retired := setRetired }) }

/-! ## Scanned blocks -/

/-- The block numbers of the rows of {lit}`ingested_blocks` for a key, in the
order they were inserted. -/
def scannedBlocks (db : IngestDb K) (key : K) : List Nat :=
  (db.ingestedBlocks.filter (·.ingressPublicKey = key)).map (·.blockNumber)

/-- {lit}`get_last_scanned_block_index`: the largest block number for the key. -/
def getLastScannedBlockIndex (db : IngestDb K) (key : K) : Option Nat :=
  (db.scannedBlocks key).max?

/-- {lit}`get_highest_known_block_index`: the largest block number of any key. -/
def getHighestKnownBlockIndex (db : IngestDb K) : Option Nat :=
  (db.ingestedBlocks.map (·.blockNumber)).max?

/-! ## Invocations and blocks -/

/-- {lit}`decommission_ingest_invocation_impl`: mark the invocation
decommissioned and write its decommission event; the event's foreign key and
the uniqueness of {lit}`decommission_ingest_invocation_id` refuse a missing or
an already decommissioned invocation. -/
def decommissionIngestInvocation (db : IngestDb K) (id : Nat) : Except (DbError K) (IngestDb K) :=
  let db' := { db with
    ingestInvocations := Function.update db.ingestInvocations id
      ((db.ingestInvocations id).map fun (row : IngestInvocationRow K) =>
        { row with decommissioned := true }) }
  db'.insertUserEvent (NewUserEvent.decommissionIngestInvocation id)

/-- The insertion of a new invocation row with the next id of the sequence and
its announcement, once the previous invocation is decommissioned; the foreign
key refuses an unknown ingress key and the primary key an id in use. -/
def insertIngestInvocation (db : IngestDb K) (ingressPublicKey : K) (startBlock : Nat) :
    Except (DbError K) (Nat × IngestDb K) :=
  if (db.ingressKeys ingressPublicKey).isNone then .error (.orm .foreignKeyViolation)
  else if (db.ingestInvocations (db.lastIngestInvocationId + 1)).isSome then
    .error (.orm .uniqueViolation)
  else
    let id := db.lastIngestInvocationId + 1
    let db' := { db with
      ingestInvocations := Function.update db.ingestInvocations id
        (some { ingressPublicKey, startBlock, decommissioned := false })
      lastIngestInvocationId := id }
    (db'.insertUserEvent (NewUserEvent.newIngestInvocation id)).map fun db'' => (id, db'')

/-- {lit}`new_ingest_invocation`: decommission the previous invocation if
given, then insert the new one. -/
def newIngestInvocation (db : IngestDb K) (prevIngestInvocationId : Option Nat)
    (ingressPublicKey : K) (startBlock : Nat) : Except (DbError K) (Nat × IngestDb K) :=
  match prevIngestInvocationId with
  | some prev =>
      match db.decommissionIngestInvocation prev with
      | .ok db' => db'.insertIngestInvocation ingressPublicKey startBlock
      | .error err => .error err
  | none => db.insertIngestInvocation ingressPublicKey startBlock

/-- Whether a row of {lit}`ingested_blocks` already holds this block for the
key or for the invocation. -/
def blockScanned (db : IngestDb K) (key : K) (ingestInvocationId blockIndex : Nat) : Bool :=
  db.ingestedBlocks.any fun row =>
    (row.ingressPublicKey = key || row.ingestInvocationId = ingestInvocationId) &&
      row.blockNumber = blockIndex

/-- {lit}`add_block_data`: insert the block under the invocation's ingress key;
a uniqueness violation is reported as
{lit}`block_already_scanned_with_this_key`.  An unknown invocation is not
found. -/
def addBlockData (db : IngestDb K) (ingestInvocationId blockIndex : Nat) :
    Except (DbError K) (Bool × IngestDb K) :=
  match db.ingestInvocations ingestInvocationId with
  | none => .error (.orm .notFound)
  | some inv =>
      if (db.ingressKeys inv.ingressPublicKey).isNone then .error (.orm .foreignKeyViolation)
      else if db.blockScanned inv.ingressPublicKey ingestInvocationId blockIndex then
        .ok (true, db)
      else
        .ok (false, { db with
          ingestedBlocks :=
            db.ingestedBlocks ++ [⟨inv.ingressPublicKey, ingestInvocationId, blockIndex⟩] })

/-- Exactly what a successful {lit}`add_block_data` does: the invocation and
its key exist, and either the block was already there for the key or the
invocation and nothing changed, or it was not and its row is appended. -/
theorem addBlockData_eq_ok_iff {db db' : IngestDb K} {id blockIndex : Nat} {scanned : Bool} :
    db.addBlockData id blockIndex = .ok (scanned, db') ↔
      ∃ inv, db.ingestInvocations id = some inv ∧
        (db.ingressKeys inv.ingressPublicKey).isSome ∧
        scanned = db.blockScanned inv.ingressPublicKey id blockIndex ∧
        db' = if scanned then db else
          { db with
            ingestedBlocks := db.ingestedBlocks ++ [⟨inv.ingressPublicKey, id, blockIndex⟩] } := by
  unfold addBlockData
  cases hinv : db.ingestInvocations id with
  | none => simp
  | some inv =>
      cases hkey : db.ingressKeys inv.ingressPublicKey with
      | none => simp [hkey]
      | some s =>
          cases hs : db.blockScanned inv.ingressPublicKey id blockIndex with
          | true =>
              simp only [hkey, hs, Option.isNone_some, Bool.false_eq_true, if_false, if_true,
                Except.ok.injEq, Prod.mk.injEq, Option.some.injEq, Option.isSome_some,
                exists_eq_left', true_and]
              constructor
              · rintro ⟨rfl, rfl⟩
                exact ⟨rfl, rfl⟩
              · rintro ⟨rfl, rfl⟩
                exact ⟨rfl, rfl⟩
          | false =>
              simp only [hkey, hs, Option.isNone_some, Bool.false_eq_true, if_false,
                Except.ok.injEq, Prod.mk.injEq, Option.some.injEq, Option.isSome_some,
                exists_eq_left', true_and]
              constructor
              · rintro ⟨rfl, rfl⟩
                exact ⟨rfl, rfl⟩
              · rintro ⟨rfl, rfl⟩
                exact ⟨rfl, rfl⟩

/-! ## The tables only grow -/

/-- The tables of {lit}`db'` extend those of {lit}`db`: every key is still there
with its start block and an expiry at least as large, every invocation keeps
its key, the id sequences do not go back, and blocks and user events are only
appended. -/
structure Grows (db db' : IngestDb K) : Prop where
  keys : ∀ k s, db.ingressKeys k = some s →
    ∃ s', db'.ingressKeys k = some s' ∧ s'.startBlock = s.startBlock ∧
      s.pubkeyExpiry ≤ s'.pubkeyExpiry
  invocations : ∀ i row, db.ingestInvocations i = some row →
    ∃ row', db'.ingestInvocations i = some row' ∧ row'.ingressPublicKey = row.ingressPublicKey
  lastId : db.lastIngestInvocationId ≤ db'.lastIngestInvocationId
  blocks : List.IsPrefix db.ingestedBlocks db'.ingestedBlocks
  userEvents : List.IsPrefix db.userEvents db'.userEvents

omit [DecidableEq K] in
/-- Every database extends itself. -/
theorem Grows.refl (db : IngestDb K) : Grows db db :=
  ⟨fun _ s h => ⟨s, h, rfl, le_rfl⟩, fun _ row h => ⟨row, h, rfl⟩, le_rfl,
    List.prefix_refl _, List.prefix_refl _⟩

omit [DecidableEq K] in
/-- Extension is transitive. -/
theorem Grows.trans {db db' db'' : IngestDb K} (h : Grows db db') (h' : Grows db' db'') :
    Grows db db'' := by
  refine ⟨fun k s hs => ?_, fun i row hrow => ?_, h.lastId.trans h'.lastId,
    h.blocks.trans h'.blocks, h.userEvents.trans h'.userEvents⟩
  · obtain ⟨s', hs', hstart, hexp⟩ := h.keys k s hs
    obtain ⟨s'', hs'', hstart', hexp'⟩ := h'.keys k s' hs'
    exact ⟨s'', hs'', hstart'.trans hstart, hexp.trans hexp'⟩
  · obtain ⟨row', hrow', hkey⟩ := h.invocations i row hrow
    obtain ⟨row'', hrow'', hkey'⟩ := h'.invocations i row' hrow'
    exact ⟨row'', hrow'', hkey'.trans hkey⟩

omit [DecidableEq K] in
/-- A change to the key table alone that keeps each key's start block and
does not lower its expiry grows the tables. -/
theorem grows_of_ingressKeys {db db' : IngestDb K}
    (hkeys : ∀ k s, db.ingressKeys k = some s →
      ∃ s', db'.ingressKeys k = some s' ∧ s'.startBlock = s.startBlock ∧
        s.pubkeyExpiry ≤ s'.pubkeyExpiry)
    (hinv : db'.ingestInvocations = db.ingestInvocations)
    (hlast : db'.lastIngestInvocationId = db.lastIngestInvocationId)
    (hblocks : db'.ingestedBlocks = db.ingestedBlocks)
    (hevents : db'.userEvents = db.userEvents) :
    Grows db db' :=
  ⟨hkeys, fun _ row h => ⟨row, hinv ▸ h, rfl⟩, hlast.ge, hblocks ▸ List.prefix_refl _,
    hevents ▸ List.prefix_refl _⟩

/-- Updating one key's row by a change that keeps its start block and does not
lower its expiry keeps the other rows. -/
theorem ingressKeys_update_keeps {db : IngestDb K} {key : K}
    {f : IngressPublicKeyStatus → IngressPublicKeyStatus}
    (hf : ∀ s, (f s).startBlock = s.startBlock ∧ s.pubkeyExpiry ≤ (f s).pubkeyExpiry)
    (k : K) (s : IngressPublicKeyStatus) (hs : db.ingressKeys k = some s) :
    ∃ s', Function.update db.ingressKeys key ((db.ingressKeys key).map f) k = some s' ∧
      s'.startBlock = s.startBlock ∧ s.pubkeyExpiry ≤ s'.pubkeyExpiry := by
  by_cases hk : k = key
  · subst hk
    exact ⟨f s, by simp [hs], (hf s).1, (hf s).2⟩
  · exact ⟨s, by simpa [Function.update_of_ne hk] using hs, rfl, le_rfl⟩

/-- Adding an ingress key extends the database. -/
theorem grows_newIngressKey (db : IngestDb K) (key : K) (startBlock : Nat) :
    Grows db (db.newIngressKey key startBlock).2 := by
  unfold newIngressKey
  split
  · exact Grows.refl db
  · rename_i hnone
    refine grows_of_ingressKeys (fun k s hs => ⟨s, ?_, rfl, le_rfl⟩) rfl rfl rfl rfl
    have hk : k ≠ key := by
      rintro rfl
      rw [hnone] at hs
      cases hs
    simpa [Function.update_of_ne hk] using hs

/-- Retiring or unretiring a key extends the database. -/
theorem grows_retireIngressKey (db : IngestDb K) (key : K) (setRetired : Bool) :
    Grows db (db.retireIngressKey key setRetired) :=
  grows_of_ingressKeys
    (ingressKeys_update_keeps (f := fun s => { s with retired := setRetired })
      fun _ => ⟨rfl, le_rfl⟩) rfl rfl rfl rfl

omit [DecidableEq K] in
/-- A successful insertion of a user event extends the database. -/
theorem grows_insertUserEvent {db db' : IngestDb K} {e : NewUserEvent}
    (h : db.insertUserEvent e = .ok db') : Grows db db' := by
  rw [insertUserEvent_eq_ok h]
  exact ⟨fun _ s hs => ⟨s, hs, rfl, le_rfl⟩, fun _ row h => ⟨row, h, rfl⟩, le_rfl,
    List.prefix_refl _, List.prefix_append _ _⟩

omit [DecidableEq K] in
/-- A successful decommission extends the database. -/
theorem grows_decommissionIngestInvocation {db db' : IngestDb K} {id : Nat}
    (h : db.decommissionIngestInvocation id = .ok db') : Grows db db' := by
  unfold decommissionIngestInvocation at h
  refine Grows.trans ?_ (grows_insertUserEvent h)
  refine ⟨fun _ s hs => ⟨s, hs, rfl, le_rfl⟩, fun i row hrow => ?_, le_rfl,
    List.prefix_refl _, List.prefix_refl _⟩
  by_cases hi : i = id
  · subst hi
    exact ⟨{ row with decommissioned := true }, by simp [hrow], rfl⟩
  · exact ⟨row, by simpa [Function.update_of_ne hi] using hrow, rfl⟩

omit [DecidableEq K] in
/-- A successful insertion of an invocation extends the database. -/
theorem grows_insertIngestInvocation {db db' : IngestDb K} {key : K} {startBlock id : Nat}
    (h : db.insertIngestInvocation key startBlock = .ok (id, db')) : Grows db db' := by
  unfold insertIngestInvocation at h
  split at h
  · cases h
  · split at h
    · cases h
    · rename_i hfree
      obtain ⟨db'', hins, hpair⟩ := Except.map_eq_ok.1 h
      cases hpair
      refine Grows.trans ?_ (grows_insertUserEvent hins)
      refine ⟨fun _ s hs => ⟨s, hs, rfl, le_rfl⟩, fun i row hrow => ?_, Nat.le_succ _,
        List.prefix_refl _, List.prefix_refl _⟩
      have hi : i ≠ db.lastIngestInvocationId + 1 := by
        rintro rfl
        simp [hrow] at hfree
      exact ⟨row, by simpa [Function.update_of_ne hi] using hrow, rfl⟩

omit [DecidableEq K] in
/-- A successful new invocation extends the database. -/
theorem grows_newIngestInvocation {db db' : IngestDb K} {prev : Option Nat} {key : K}
    {startBlock id : Nat} (h : db.newIngestInvocation prev key startBlock = .ok (id, db')) :
    Grows db db' := by
  unfold newIngestInvocation at h
  cases prev with
  | none => exact grows_insertIngestInvocation h
  | some p =>
      cases hdec : db.decommissionIngestInvocation p with
      | error err => simp [hdec] at h
      | ok db₁ =>
          simp only [hdec] at h
          exact (grows_decommissionIngestInvocation hdec).trans (grows_insertIngestInvocation h)

/-- A successful addition of a block extends the database. -/
theorem grows_addBlockData {db db' : IngestDb K} {id blockIndex : Nat} {scanned : Bool}
    (h : db.addBlockData id blockIndex = .ok (scanned, db')) : Grows db db' := by
  obtain ⟨inv, -, -, -, rfl⟩ := addBlockData_eq_ok_iff.1 h
  split
  · exact Grows.refl db
  · exact ⟨fun _ s hs => ⟨s, hs, rfl, le_rfl⟩, fun _ row h => ⟨row, h, rfl⟩, le_rfl,
      List.prefix_append _ _, List.prefix_refl _⟩

omit [DecidableEq K] in
/-- A new invocation is recorded under its id with its key and start block. -/
theorem ingestInvocations_newIngestInvocation {db db' : IngestDb K} {prev : Option Nat} {key : K}
    {startBlock id : Nat} (h : db.newIngestInvocation prev key startBlock = .ok (id, db')) :
    db'.ingestInvocations id = some { ingressPublicKey := key, startBlock, decommissioned := false } := by
  have hins : ∀ {db₁ : IngestDb K}, db₁.insertIngestInvocation key startBlock = .ok (id, db') →
      db'.ingestInvocations id = some { ingressPublicKey := key, startBlock, decommissioned := false } := by
    intro db₁ h
    unfold insertIngestInvocation at h
    split at h
    · cases h
    · split at h
      · cases h
      · obtain ⟨db'', hevent, hpair⟩ := Except.map_eq_ok.1 h
        cases hpair
        rw [insertUserEvent_eq_ok hevent]
        simp
  unfold newIngestInvocation at h
  cases prev with
  | none => exact hins h
  | some p =>
      cases hdec : db.decommissionIngestInvocation p with
      | error err => simp [hdec] at h
      | ok db₁ =>
          simp only [hdec] at h
          exact hins h

omit [DecidableEq K] in
/-- Decommissioning an invocation changes neither the keys nor the scanned
blocks. -/
theorem decommissionIngestInvocation_frame {db db' : IngestDb K} {id : Nat}
    (h : db.decommissionIngestInvocation id = .ok db') :
    db'.ingressKeys = db.ingressKeys ∧ db'.ingestedBlocks = db.ingestedBlocks := by
  unfold decommissionIngestInvocation at h
  rw [insertUserEvent_eq_ok h]
  exact ⟨rfl, rfl⟩

omit [DecidableEq K] in
/-- A new invocation changes neither the keys nor the scanned blocks. -/
theorem newIngestInvocation_frame {db db' : IngestDb K} {prev : Option Nat} {key : K}
    {startBlock id : Nat} (h : db.newIngestInvocation prev key startBlock = .ok (id, db')) :
    db'.ingressKeys = db.ingressKeys ∧ db'.ingestedBlocks = db.ingestedBlocks := by
  have hins : ∀ {db₁ : IngestDb K}, db₁.insertIngestInvocation key startBlock = .ok (id, db') →
      db'.ingressKeys = db₁.ingressKeys ∧ db'.ingestedBlocks = db₁.ingestedBlocks := by
    intro db₁ h
    unfold insertIngestInvocation at h
    split at h
    · cases h
    · split at h
      · cases h
      · obtain ⟨db'', hevent, hpair⟩ := Except.map_eq_ok.1 h
        cases hpair
        rw [insertUserEvent_eq_ok hevent]
        exact ⟨rfl, rfl⟩
  unfold newIngestInvocation at h
  cases prev with
  | none => exact hins h
  | some p =>
      cases hdec : db.decommissionIngestInvocation p with
      | error err => simp [hdec] at h
      | ok db₁ =>
          simp only [hdec] at h
          obtain ⟨hkeys, hblocks⟩ := decommissionIngestInvocation_frame hdec
          rw [← hkeys, ← hblocks]
          exact hins h

end IngestDb

end RecoveryDb
end Fog
