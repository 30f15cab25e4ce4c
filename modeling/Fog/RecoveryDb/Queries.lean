import Fog.RecoveryDb.SqlRecoveryDb
import Fog.Lib.KeyedTable

/-!
# What the other servers read from the recovery database

The queries of {lit}`SqlRecoveryDb` in {lit}`fog/sql_recovery_db/src/lib.rs`
that read what the ingest servers write: the view server's database fetcher
asks {lit}`get_ingress_key_records` for the keys and
{lit}`get_tx_outs_by_block_and_key` for the next block of each key,
{lit}`get_invocation_id_by_block_and_key` names the invocation that wrote a
block, and the report server publishes {lit}`get_all_reports`, whose rows
{lit}`remove_report` deletes.

The model keeps the records of a row of {lit}`ingested_blocks` at the same
position of {lean}`SqlRecoveryDb.blockRecords`.  It keeps every report row
written; the report table is what their upserts write
({lean}`KeyedTable.ofLog`), since {lit}`set_report` inserts its row with
{lit}`ON CONFLICT (fog_report_id) DO UPDATE`, and a deletion drops the id's
rows.  The attestation report a row carries is not modelled.

The two block queries end in {lit}`IngestedBlockSchemaViolation` when they
find more than one row for a key and a block.  The uniqueness of
{lit}`(ingress_public_key, block_number)`, which {lit}`add_block_data` checks
before it writes, rules this out in every database the transactions build.

Main results:

- Structure {lit}`SqlRecoveryDb.BlocksWf` and the theorems after it: every
  transaction keeps one row per key and block, each with its records and an
  invocation of its key.
- Theorem {lit}`SqlRecoveryDb.getTxOutsByBlockAndKey_eq`: on such a database
  the block query is never a schema violation, and finds data exactly for the
  blocks scanned with the key.
- Theorem {lit}`SqlRecoveryDb.getTxOutsByBlockAndKey_addBlockData`: a block
  added is read back with its records and its invocation.
- Theorems {lit}`SqlRecoveryDb.reportTable_setReport` and
  {lit}`SqlRecoveryDb.getAllReports_removeReport`: the published reports are a
  table keyed by report id under upsert and delete.
-/

namespace Fog
namespace RecoveryDb

/-- {lit}`Error::IngestedBlockSchemaViolation` of the two block queries: the
number of rows found for the key and the block, where the constraint allows
one. -/
structure IngestedBlockSchemaViolation (K : Type) where
  found : Nat
  ingressKey : K
  blockIndex : Nat
deriving DecidableEq, Repr

namespace SqlRecoveryDb

variable {K Rec : Type}

/-- The end the two block queries share: no row is no data yet, one row is its
column, and more rows go against the constraint. -/
def atMostOne {α : Type} (ingressKey : K) (blockIndex : Nat) :
    List α → Except (IngestedBlockSchemaViolation K) (Option α)
  | [] => .ok none
  | [a] => .ok (some a)
  | rows => .error ⟨rows.length, ingressKey, blockIndex⟩

/-- At most one row passes the uniqueness check and yields its head. -/
theorem atMostOne_of_length_le_one {α : Type} {ingressKey : K} {blockIndex : Nat} {rows : List α}
    (h : rows.length ≤ 1) : atMostOne ingressKey blockIndex rows = .ok rows.head? := by
  match rows, h with
  | [], _ => rfl
  | [_], _ => rfl

/-- The rows of {lit}`ingested_blocks`, each with the records of its
{lit}`proto_ingested_block_data`. -/
def ingestedBlockData (db : SqlRecoveryDb K Rec) : List (IngestedBlockRow K × List Rec) :=
  db.tables.ingestedBlocks.zip (db.blockRecords.map fun e => e.2.2)

/-- The report table: for each report id the last row written, in the order
of the serial id that its first write took. -/
def reportTable (db : SqlRecoveryDb K Rec) : List (ReportRow K) :=
  KeyedTable.ofLog ReportRow.fogReportId db.reports

/-- {lit}`get_all_reports`: every row of the report table, ordered by id. -/
def getAllReports (db : SqlRecoveryDb K Rec) : List (String × ReportData) :=
  db.reportTable.map fun row => (row.fogReportId, ⟨row.ingestInvocationId, row.pubkeyExpiry⟩)

/-- {lit}`remove_report`: delete the row of the report id. -/
def removeReport (db : SqlRecoveryDb K Rec) (reportId : String) : SqlRecoveryDb K Rec :=
  { db with reports := db.reports.filter fun row => row.fogReportId ≠ reportId }

variable [DecidableEq K]

/-- The rows of {lit}`ingested_blocks` for a key and a block. -/
def blockRows (db : SqlRecoveryDb K Rec) (ingressKey : K) (blockIndex : Nat) :
    List (IngestedBlockRow K × List Rec) :=
  db.ingestedBlockData.filter fun e =>
    e.1.ingressPublicKey = ingressKey ∧ e.1.blockNumber = blockIndex

/-- {lit}`get_tx_outs_by_block_and_key`: the records the key's invocation
wrote for the block, {lean}`none` if it has not been added yet. -/
def getTxOutsByBlockAndKey (db : SqlRecoveryDb K Rec) (ingressKey : K) (blockIndex : Nat) :
    Except (IngestedBlockSchemaViolation K) (Option (List Rec)) :=
  atMostOne ingressKey blockIndex ((db.blockRows ingressKey blockIndex).map (·.2))

/-- {lit}`get_invocation_id_by_block_and_key`: the invocation that wrote the
block for the key. -/
def getInvocationIdByBlockAndKey (db : SqlRecoveryDb K Rec) (ingressKey : K) (blockIndex : Nat) :
    Except (IngestedBlockSchemaViolation K) (Option Nat) :=
  atMostOne ingressKey blockIndex ((db.blockRows ingressKey blockIndex).map (·.1.ingestInvocationId))

/-- {lit}`get_ingress_key_records`: the keys whose start block is at least the
bound, each with its status and its last scanned block.  The model's key table
is a function and cannot be listed, so the query takes the keys it visits, in
its order; the results below hold whichever keys they are. -/
def getIngressKeyRecords (db : SqlRecoveryDb K Rec) (keys : List K) (startBlockAtLeast : Nat) :
    List (IngressPublicKeyRecord K) :=
  keys.filterMap fun key => (db.tables.ingressKeys key).bind fun status =>
    if startBlockAtLeast ≤ status.startBlock then
      some ⟨key, status, db.getLastScannedBlockIndex key⟩
    else none

/-! ## The block queries -/

/-- Every record list the fetcher reads is a row's. -/
theorem getIngressKeyRecords_mem {db : SqlRecoveryDb K Rec} {keys : List K} {start : Nat}
    {rec : IngressPublicKeyRecord K} (h : rec ∈ db.getIngressKeyRecords keys start) :
    db.tables.ingressKeys rec.key = some rec.status ∧ start ≤ rec.status.startBlock ∧
      rec.lastScannedBlock = db.getLastScannedBlockIndex rec.key := by
  obtain ⟨key, -, hkey⟩ := List.mem_filterMap.1 h
  obtain ⟨status, hs, hrec⟩ := Option.bind_eq_some_iff.1 hkey
  split at hrec
  · cases hrec
    exact ⟨hs, by assumption, rfl⟩
  · cases hrec

/-- A block that the uniqueness check of {lit}`add_block_data` lets through has
no row for the key. -/
theorem IngestDb.blockNumber_ne_of_blockScanned {tables : IngestDb K} {key : K} {id b : Nat}
    (h : tables.blockScanned key id b = false) {row : IngestedBlockRow K}
    (hrow : row ∈ tables.ingestedBlocks) (hkey : row.ingressPublicKey = key) : row.blockNumber ≠ b := by
  intro hb
  have : tables.blockScanned key id b = true := by
    simp only [IngestDb.blockScanned, List.any_eq_true, Bool.and_eq_true, Bool.or_eq_true,
      decide_eq_true_eq]
    exact ⟨row, hrow, .inl hkey, hb⟩
  rw [this] at h
  cases h

/-! ## What the transactions keep of the blocks -/

/-- What the constraints of {lit}`ingested_blocks` and the writes of
{lit}`add_block_data` keep. -/
structure BlocksWf (db : SqlRecoveryDb K Rec) : Prop where
  /-- The uniqueness of {lit}`(ingress_public_key, block_number)`. -/
  unique : (db.tables.ingestedBlocks.map fun row => (row.ingressPublicKey, row.blockNumber)).Nodup
  /-- Each row's records are stored at its position, under its invocation and
  its block. -/
  aligned : db.blockRecords.map (fun e => (e.1, e.2.1)) =
    db.tables.ingestedBlocks.map fun row => (row.ingestInvocationId, row.blockNumber)
  /-- Each row's invocation exists and belongs to the row's key. -/
  owned : ∀ row ∈ db.tables.ingestedBlocks, ∃ inv,
    db.tables.ingestInvocations row.ingestInvocationId = some inv ∧
      inv.ingressPublicKey = row.ingressPublicKey

omit [DecidableEq K] in
/-- The empty database has well-formed blocks. -/
theorem blocksWf_empty : (empty : SqlRecoveryDb K Rec).BlocksWf where
  unique := List.nodup_nil
  aligned := rfl
  owned _ h := by cases h

omit [DecidableEq K] in
/-- A change that grows the database and adds no block and no records keeps
the blocks well formed. -/
theorem BlocksWf.of_grows {db db' : SqlRecoveryDb K Rec} (h : db.BlocksWf) (hg : Grows db db')
    (hblocks : db'.tables.ingestedBlocks = db.tables.ingestedBlocks)
    (hrecords : db'.blockRecords = db.blockRecords) : db'.BlocksWf := by
  refine ⟨hblocks ▸ h.unique, by rw [hblocks, hrecords]; exact h.aligned, fun row hrow => ?_⟩
  rw [hblocks] at hrow
  obtain ⟨inv, hinv, hkey⟩ := h.owned row hrow
  obtain ⟨inv', hinv', hkey'⟩ := hg.tables.invocations _ inv hinv
  exact ⟨inv', hinv', hkey'.trans hkey⟩

/-- Adding an ingress key keeps the blocks well formed. -/
theorem BlocksWf.newIngressKey {db : SqlRecoveryDb K Rec} (h : db.BlocksWf) (key : K)
    (startBlock : Nat) : (db.newIngressKey key startBlock).2.BlocksWf := by
  refine h.of_grows (grows_newIngressKey db key startBlock) ?_ rfl
  unfold SqlRecoveryDb.newIngressKey IngestDb.newIngressKey
  split <;> rfl

/-- Retiring a key keeps the blocks well formed. -/
theorem BlocksWf.retireIngressKey {db : SqlRecoveryDb K Rec} (h : db.BlocksWf) (key : K)
    (setRetired : Bool) : (db.retireIngressKey key setRetired).BlocksWf :=
  h.of_grows (grows_retireIngressKey db key setRetired) rfl rfl

omit [DecidableEq K] in
/-- A decommission keeps the blocks well formed. -/
theorem BlocksWf.decommissionIngestInvocation {db db' : SqlRecoveryDb K Rec} (h : db.BlocksWf)
    {id : Nat} (hdec : db.decommissionIngestInvocation id = .ok db') : db'.BlocksWf := by
  obtain ⟨tables, htables, rfl⟩ := Except.map_eq_ok.1 hdec
  exact h.of_grows (grows_decommissionIngestInvocation hdec)
    (IngestDb.decommissionIngestInvocation_frame htables).2 rfl

omit [DecidableEq K] in
/-- A new invocation keeps the blocks well formed. -/
theorem BlocksWf.newIngestInvocation {db db' : SqlRecoveryDb K Rec} (h : db.BlocksWf)
    {prev : Option Nat} {key : K} {egress : KexRng.KexRngPubkey} {startBlock id : Nat}
    (hnew : db.newIngestInvocation prev key egress startBlock = .ok (id, db')) : db'.BlocksWf := by
  have hg := grows_newIngestInvocation hnew
  unfold SqlRecoveryDb.newIngestInvocation at hnew
  split at hnew
  · cases hnew
  · obtain ⟨⟨id', tables⟩, htables, hpair⟩ := Except.map_eq_ok.1 hnew
    cases hpair
    exact h.of_grows hg (IngestDb.newIngestInvocation_frame htables).2 rfl

/-- A report keeps the blocks well formed. -/
theorem BlocksWf.setReport {db db' : SqlRecoveryDb K Rec} (h : db.BlocksWf) {key : K}
    {reportId : String} {data : ReportData} {result : IngressPublicKeyStatus}
    (hset : db.setReport key reportId data = .ok (result, db')) : db'.BlocksWf := by
  have hg := grows_setReport hset
  obtain ⟨status, -, ⟨-, -, rfl⟩ | ⟨-, -, -, rfl⟩⟩ := setReport_eq_ok_iff.1 hset
  · exact h
  · exact h.of_grows hg rfl rfl

omit [DecidableEq K] in
/-- Removing a report keeps the blocks well formed. -/
theorem BlocksWf.removeReport {db : SqlRecoveryDb K Rec} (h : db.BlocksWf) (reportId : String) :
    (db.removeReport reportId).BlocksWf :=
  ⟨h.unique, h.aligned, h.owned⟩

/-- A block added as new is the only row of its key and block, and is stored
with its records under its invocation. -/
theorem BlocksWf.addBlockData {db db' : SqlRecoveryDb K Rec} (h : db.BlocksWf)
    {id blockIndex : Nat} {records : List Rec} {scanned : Bool}
    (hadd : db.addBlockData id blockIndex records = .ok (scanned, db')) : db'.BlocksWf := by
  obtain ⟨inv, hinv, -, hscanned, rfl⟩ := addBlockData_eq_ok_iff.1 hadd
  cases scanned with
  | true => exact h
  | false =>
      simp only [Bool.false_eq_true, if_false]
      have hfresh : (inv.ingressPublicKey, blockIndex) ∉
          db.tables.ingestedBlocks.map fun row => (row.ingressPublicKey, row.blockNumber) := by
        intro hmem
        obtain ⟨row, hrow, hpair⟩ := List.mem_map.1 hmem
        simp only [Prod.mk.injEq] at hpair
        exact IngestDb.blockNumber_ne_of_blockScanned hscanned.symm hrow hpair.1 hpair.2
      refine ⟨?_, ?_, fun row hrow => ?_⟩
      · rw [List.map_append, List.map_singleton]
        exact h.unique.append (List.nodup_singleton _) (by simpa using hfresh)
      · simp only [List.map_append, List.map_singleton, h.aligned]
      · rcases List.mem_append.1 hrow with hold | hnew
        · exact h.owned row hold
        · rw [List.mem_singleton] at hnew
          subst hnew
          exact ⟨inv, hinv, rfl⟩

/-! ## The block queries on a well-formed database -/

omit [DecidableEq K] in
/-- There are as many record lists as rows. -/
theorem BlocksWf.length_eq {db : SqlRecoveryDb K Rec} (h : db.BlocksWf) :
    db.tables.ingestedBlocks.length = (db.blockRecords.map fun e => e.2.2).length := by
  have := congrArg List.length h.aligned
  simp only [List.length_map] at this ⊢
  exact this.symm

omit [DecidableEq K] in
/-- Each row has its records beside it. -/
theorem BlocksWf.map_fst_ingestedBlockData {db : SqlRecoveryDb K Rec} (h : db.BlocksWf) :
    db.ingestedBlockData.map Prod.fst = db.tables.ingestedBlocks :=
  List.map_fst_zip h.length_eq.le

/-- The rows for a key and a block are the rows of the table with them. -/
theorem BlocksWf.map_fst_blockRows {db : SqlRecoveryDb K Rec} (h : db.BlocksWf) (k : K)
    (b : Nat) : (db.blockRows k b).map Prod.fst =
      db.tables.ingestedBlocks.filter fun row => row.ingressPublicKey = k ∧ row.blockNumber = b := by
  rw [← h.map_fst_ingestedBlockData, List.filter_map]
  rfl

/-- One row at most for a key and a block. -/
theorem BlocksWf.length_blockRows_le_one {db : SqlRecoveryDb K Rec} (h : db.BlocksWf) (k : K)
    (b : Nat) : (db.blockRows k b).length ≤ 1 := by
  have hsub : ((db.blockRows k b).map fun e => (e.1.ingressPublicKey, e.1.blockNumber)).Sublist
      (db.tables.ingestedBlocks.map fun row => (row.ingressPublicKey, row.blockNumber)) := by
    have : ((db.blockRows k b).map fun e => (e.1.ingressPublicKey, e.1.blockNumber)) =
        ((db.blockRows k b).map Prod.fst).map fun row => (row.ingressPublicKey, row.blockNumber) := by
      rw [List.map_map]
      rfl
    rw [this, h.map_fst_blockRows]
    exact List.filter_sublist.map _
  have hrep : ((db.blockRows k b).map fun e => (e.1.ingressPublicKey, e.1.blockNumber)) =
      List.replicate (db.blockRows k b).length (k, b) := by
    rw [List.eq_replicate_iff, List.length_map]
    refine ⟨rfl, fun p hp => ?_⟩
    obtain ⟨e, he, rfl⟩ := List.mem_map.1 hp
    have := (List.mem_filter.1 he).2
    simp only [decide_eq_true_eq] at this
    rw [this.1, this.2]
  have hnodup := h.unique.sublist hsub
  rw [hrep, List.nodup_replicate] at hnodup
  exact hnodup

/-- A key and a block have a row exactly when the block is scanned with the
key. -/
theorem BlocksWf.blockRows_ne_nil_iff {db : SqlRecoveryDb K Rec} (h : db.BlocksWf) (k : K)
    (b : Nat) : db.blockRows k b ≠ [] ↔ b ∈ db.tables.scannedBlocks k := by
  have hmap : db.blockRows k b ≠ [] ↔ (db.blockRows k b).map Prod.fst ≠ [] := by
    rw [ne_eq, ne_eq, List.map_eq_nil_iff]
  rw [hmap, h.map_fst_blockRows, IngestDb.scannedBlocks, List.mem_map, ne_eq,
    List.filter_eq_nil_iff]
  simp only [decide_eq_true_eq, not_forall, not_and, not_not, List.mem_filter]
  constructor
  · rintro ⟨row, hrow, hk, hb⟩
    exact ⟨row, ⟨hrow, hk⟩, hb⟩
  · rintro ⟨row, ⟨hrow, hk⟩, hb⟩
    exact ⟨row, hrow, hk, hb⟩

/-- On a well-formed database {lit}`get_tx_outs_by_block_and_key` never reports
a schema violation: it returns the records of the one row of the key and the
block, and finds one exactly when the block is scanned with the key. -/
theorem getTxOutsByBlockAndKey_eq {db : SqlRecoveryDb K Rec} (h : db.BlocksWf) (k : K) (b : Nat) :
    db.getTxOutsByBlockAndKey k b = .ok ((db.blockRows k b).head?.map (·.2)) ∧
      (((db.blockRows k b).head?.map (·.2)).isSome ↔ b ∈ db.tables.scannedBlocks k) := by
  refine ⟨?_, ?_⟩
  · rw [getTxOutsByBlockAndKey, atMostOne_of_length_le_one, List.head?_map]
    rw [List.length_map]
    exact h.length_blockRows_le_one k b
  · rw [Option.isSome_map, List.isSome_head?, ← h.blockRows_ne_nil_iff k b]

/-- On a well-formed database {lit}`get_invocation_id_by_block_and_key` never
reports a schema violation, and the invocation it names belongs to the key. -/
theorem getInvocationIdByBlockAndKey_eq {db : SqlRecoveryDb K Rec} (h : db.BlocksWf) (k : K)
    (b : Nat) :
    db.getInvocationIdByBlockAndKey k b = .ok ((db.blockRows k b).head?.map (·.1.ingestInvocationId)) ∧
      ∀ e ∈ (db.blockRows k b).head?, ∃ inv,
        db.tables.ingestInvocations e.1.ingestInvocationId = some inv ∧ inv.ingressPublicKey = k := by
  refine ⟨?_, fun e he => ?_⟩
  · rw [getInvocationIdByBlockAndKey, atMostOne_of_length_le_one, List.head?_map]
    rw [List.length_map]
    exact h.length_blockRows_le_one k b
  · have hmem : e.1 ∈ db.tables.ingestedBlocks.filter
        fun row => row.ingressPublicKey = k ∧ row.blockNumber = b := by
      rw [← h.map_fst_blockRows]
      exact List.mem_map_of_mem (List.mem_of_mem_head? he)
    obtain ⟨hrow, hkb⟩ := List.mem_filter.1 hmem
    simp only [decide_eq_true_eq] at hkb
    obtain ⟨inv, hinv, hkey⟩ := h.owned _ hrow
    exact ⟨inv, hinv, hkey.trans hkb.1⟩

/-- The rows for a key and a block after a row is appended with its records. -/
theorem blockRows_append {db : SqlRecoveryDb K Rec} (h : db.BlocksWf) (row : IngestedBlockRow K)
    (e : Nat × Nat × List Rec) (k : K) (b : Nat) :
    ({ db with
        tables := { db.tables with ingestedBlocks := db.tables.ingestedBlocks ++ [row] }
        blockRecords := db.blockRecords ++ [e] } : SqlRecoveryDb K Rec).blockRows k b =
      db.blockRows k b ++
        if row.ingressPublicKey = k ∧ row.blockNumber = b then [(row, e.2.2)] else [] := by
  simp only [blockRows, ingestedBlockData, List.map_append, List.map_singleton,
    List.zip_append h.length_eq, List.zip_cons_cons, List.zip_nil_left, List.filter_append]
  congr 1
  by_cases hkb : row.ingressPublicKey = k ∧ row.blockNumber = b <;> simp [hkb]

/-- A block {lit}`add_block_data` adds as new is read back with the records and
the invocation written, and every other key and block reads as before; a block
already scanned changes nothing, so its first records stay. -/
theorem getTxOutsByBlockAndKey_addBlockData {db db' : SqlRecoveryDb K Rec} (h : db.BlocksWf)
    {id blockIndex : Nat} {records : List Rec} {scanned : Bool} {inv : IngestInvocationRow K}
    (hinv : db.tables.ingestInvocations id = some inv)
    (hadd : db.addBlockData id blockIndex records = .ok (scanned, db')) :
    (scanned = true → db' = db) ∧
      (scanned = false →
        db'.getTxOutsByBlockAndKey inv.ingressPublicKey blockIndex = .ok (some records) ∧
          db'.getInvocationIdByBlockAndKey inv.ingressPublicKey blockIndex = .ok (some id) ∧
          ∀ k b, (k, b) ≠ (inv.ingressPublicKey, blockIndex) →
            db'.getTxOutsByBlockAndKey k b = db.getTxOutsByBlockAndKey k b) := by
  have hwf := h.addBlockData hadd
  obtain ⟨inv', hinv', -, hscanned, rfl⟩ := addBlockData_eq_ok_iff.1 hadd
  rw [hinv, Option.some.injEq] at hinv'
  subst hinv'
  refine ⟨fun hs => by rw [if_pos hs], fun hs => ?_⟩
  subst hs
  simp only [Bool.false_eq_true, if_false] at hwf ⊢
  have hnil : db.blockRows inv.ingressPublicKey blockIndex = [] := by
    rw [← not_ne_iff, h.blockRows_ne_nil_iff]
    intro hmem
    obtain ⟨row, ⟨hrow, hkey⟩, hb⟩ : ∃ row, (row ∈ db.tables.ingestedBlocks ∧
        row.ingressPublicKey = inv.ingressPublicKey) ∧ row.blockNumber = blockIndex := by
      simpa [IngestDb.scannedBlocks] using hmem
    exact IngestDb.blockNumber_ne_of_blockScanned hscanned.symm hrow hkey hb
  refine ⟨?_, ?_, fun k b hkb => ?_⟩
  · rw [getTxOutsByBlockAndKey, blockRows_append h, hnil, if_pos ⟨rfl, rfl⟩]
    rfl
  · rw [getInvocationIdByBlockAndKey, blockRows_append h, hnil, if_pos ⟨rfl, rfl⟩]
    rfl
  · have hne : ¬(inv.ingressPublicKey = k ∧ blockIndex = b) := by
      rintro ⟨rfl, rfl⟩
      exact hkb rfl
    rw [getTxOutsByBlockAndKey, getTxOutsByBlockAndKey, blockRows_append h, if_neg hne,
      List.append_nil]

/-- A database holding key 7 from block 0 and its invocation 1, with nothing
scanned yet. -/
def keySevenInvocationOne : SqlRecoveryDb Nat Nat where
  tables :=
    { ingressKeys := fun k => if k = 7 then some ⟨0, 0, false, false⟩ else none
      ingestInvocations := fun i => if i = 1 then some ⟨7, 0, false⟩ else none
      lastIngestInvocationId := 1
      ingestedBlocks := []
      userEvents := []
      lastUserEventId := 0 }
  egressPublicKeys := []
  blockRecords := []
  reports := []

/-- Invocation 1 adds block 0 with one record, and both queries read it back. -/
example :
    ∃ db', keySevenInvocationOne.addBlockData 1 0 [5] = .ok (false, db') ∧
      db'.getTxOutsByBlockAndKey 7 0 = .ok (some [5]) ∧
      db'.getInvocationIdByBlockAndKey 7 0 = .ok (some 1) := by
  obtain ⟨db', hadd⟩ : ∃ db', keySevenInvocationOne.addBlockData 1 0 [5] = .ok (false, db') :=
    ⟨_, rfl⟩
  have hwf : keySevenInvocationOne.BlocksWf := ⟨List.nodup_nil, rfl, fun _ h => by cases h⟩
  have hinv : keySevenInvocationOne.tables.ingestInvocations 1 = some ⟨7, 0, false⟩ := rfl
  obtain ⟨hq, hiid, -⟩ := (getTxOutsByBlockAndKey_addBlockData hwf hinv hadd).2 rfl
  exact ⟨db', hadd, hq, hiid⟩

/-! ## The report table -/

/-- A {lit}`set_report` on a retired key leaves the table; on another key it
upserts the row written. -/
theorem reportTable_setReport {db db' : SqlRecoveryDb K Rec} {key : K} {reportId : String}
    {data : ReportData} {result : IngressPublicKeyStatus}
    (h : db.setReport key reportId data = .ok (result, db')) :
    (result.retired = true ∧ db' = db) ∨
      (result.retired = false ∧ db'.reportTable = KeyedTable.upsert ReportRow.fogReportId
        ⟨reportId, key, data.ingestInvocationId, data.pubkeyExpiry⟩ db.reportTable) := by
  obtain ⟨status, -, ⟨hretired, rfl, rfl⟩ | ⟨hretired, -, rfl, rfl⟩⟩ := setReport_eq_ok_iff.1 h
  · exact .inl ⟨hretired, rfl⟩
  · refine .inr ⟨by rw [raiseExpiry_retired]; exact hretired, ?_⟩
    exact KeyedTable.ofLog_append_singleton _ _ _

omit [DecidableEq K] in
/-- {lit}`remove_report` deletes the id from the table, and only it. -/
theorem getAllReports_removeReport (db : SqlRecoveryDb K Rec) (reportId : String) :
    (db.removeReport reportId).getAllReports = db.getAllReports.filter fun e => e.1 ≠ reportId := by
  rw [getAllReports, reportTable, removeReport]
  simp only
  rw [KeyedTable.ofLog_filter, KeyedTable.delete, getAllReports, List.filter_map]
  rfl

omit [DecidableEq K] in
/-- A report id is served with the data of its row in the table. -/
theorem lookup_getAllReports (db : SqlRecoveryDb K Rec) (reportId : String) :
    db.getAllReports.lookup reportId =
      (KeyedTable.lookup ReportRow.fogReportId reportId db.reportTable).map
        fun row => ⟨row.ingestInvocationId, row.pubkeyExpiry⟩ :=
  KeyedTable.lookup_map_pair _ _ _ _

omit [DecidableEq K] in
/-- The report ids served are the keys of the table, in its order. -/
theorem map_fst_getAllReports (db : SqlRecoveryDb K Rec) :
    db.getAllReports.map (·.1) = db.reportTable.map ReportRow.fogReportId := by
  rw [getAllReports, List.map_map]
  rfl

/-- What the report server publishes after a {lit}`set_report`: for a key that
is not retired the report id is served with the new data, a new id last and a
known one in its place, and every other id as before; a report for a retired
key changes nothing. -/
theorem getAllReports_setReport {db db' : SqlRecoveryDb K Rec} {key : K} {reportId : String}
    {data : ReportData} {result : IngressPublicKeyStatus}
    (h : db.setReport key reportId data = .ok (result, db')) :
    (result.retired = true → db'.getAllReports = db.getAllReports) ∧
      (result.retired = false →
        db'.getAllReports.lookup reportId = some data ∧
        (∀ id, id ≠ reportId → db'.getAllReports.lookup id = db.getAllReports.lookup id) ∧
        db'.getAllReports.map (·.1) =
          if reportId ∈ db.getAllReports.map (·.1) then db.getAllReports.map (·.1)
          else db.getAllReports.map (·.1) ++ [reportId]) := by
  rcases reportTable_setReport h with ⟨hretired, rfl⟩ | ⟨hretired, htable⟩
  · refine ⟨fun _ => rfl, fun hfalse => ?_⟩
    rw [hretired] at hfalse
    cases hfalse
  · refine ⟨fun htrue => ?_, fun _ => ⟨?_, fun id hid => ?_, ?_⟩⟩
    · rw [hretired] at htrue
      cases htrue
    · rw [lookup_getAllReports, htable, KeyedTable.lookup_upsert_of_eq (k := reportId) _ _ _ rfl]
      rfl
    · rw [lookup_getAllReports, lookup_getAllReports, htable,
        KeyedTable.lookup_upsert_of_ne _ _ _ (fun h => hid h.symm)]
    · rw [map_fst_getAllReports, map_fst_getAllReports, htable, KeyedTable.keys_upsert]

/-- A first report for key 7 is served with its data. -/
example :
    ∃ db', keySevenInvocationOne.setReport 7 "" ⟨none, 5⟩ = .ok (⟨0, 5, false, false⟩, db') ∧
      db'.getAllReports.lookup "" = some ⟨none, 5⟩ := by
  obtain ⟨db', h⟩ : ∃ db',
      keySevenInvocationOne.setReport 7 "" ⟨none, 5⟩ = .ok (⟨0, 5, false, false⟩, db') :=
    ⟨_, rfl⟩
  exact ⟨db', h, ((getAllReports_setReport h).2 rfl).1⟩

omit [DecidableEq K] in
/-- What the report server publishes after a {lit}`remove_report`: the report
id no more, every other id as before and in the same order. -/
theorem getAllReports_removeReport_lookup (db : SqlRecoveryDb K Rec) (reportId : String) :
    (db.removeReport reportId).getAllReports.lookup reportId = none ∧
      (∀ id, id ≠ reportId →
        (db.removeReport reportId).getAllReports.lookup id = db.getAllReports.lookup id) ∧
      (db.removeReport reportId).getAllReports.map (·.1) =
        (db.getAllReports.map (·.1)).filter (· ≠ reportId) := by
  have htable : (db.removeReport reportId).reportTable =
      KeyedTable.delete ReportRow.fogReportId reportId db.reportTable :=
    KeyedTable.ofLog_filter _ _ _
  refine ⟨?_, fun id hid => ?_, ?_⟩
  · rw [lookup_getAllReports, htable, KeyedTable.lookup_delete_self]
    rfl
  · rw [lookup_getAllReports, lookup_getAllReports, htable, KeyedTable.lookup_delete_of_ne _ _ hid]
  · rw [map_fst_getAllReports, map_fst_getAllReports, htable, KeyedTable.delete, List.filter_map]
    rfl

end SqlRecoveryDb

end RecoveryDb
end Fog
