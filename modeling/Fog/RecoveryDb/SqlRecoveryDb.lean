import Fog.RecoveryDb.IngestTables
import Fog.KexRng.Buffered
import Fog.Lib.Except

/-!
# The recovery database as the ingest servers write it

{lit}`SqlRecoveryDb` of {lit}`fog/sql_recovery_db/src/lib.rs` behind the two
traits an ingest server calls, {lit}`RecoveryDb` and {lit}`ReportDb`.  The
ingest tables are {lean}`RecoveryDb.IngestDb`; beside them stand the columns
the controller writes and that model leaves out: the egress key of each
invocation ({lit}`UNIQUE` in {lit}`ingest_invocations`), the records of each
ingested block, and the rows of {lit}`reports`.  The report table keeps one row
per {lit}`fog_report_id`, the last one written; the model keeps every row
written, in order, so that the table is the last row of each id.

Each operation is one transaction: it commits all its statements or fails
with the database unchanged.  The attestation report a row carries is not
modelled.

Main results:

- Theorem {lit}`SqlRecoveryDb.setReport_eq_ok_iff`: exactly what
  {lit}`set_report` does: a retired key changes nothing and stores no row; any
  other key gets its expiry raised to the report's when that is larger, and
  the row is stored.
- Theorem {lit}`SqlRecoveryDb.reportsBounded_setReport`: every stored report
  keeps an expiry at most its key's.
- Structure {lit}`SqlRecoveryDb.Grows` and the theorems after it: every
  operation only grows the database.
-/

namespace Fog
namespace RecoveryDb


/-- {lit}`ReportData`: the invocation a report names and its expiry. -/
structure ReportData where
  ingestInvocationId : Option Nat
  pubkeyExpiry : Nat
deriving DecidableEq, Repr

/-- A row of {lit}`reports`, as far as the modelled operations read it. -/
structure ReportRow (K : Type) where
  fogReportId : String
  ingressPublicKey : K
  ingestInvocationId : Option Nat
  pubkeyExpiry : Nat
deriving DecidableEq, Repr

/-- The recovery database: the ingest tables, the egress key of every
invocation by its id, the records of every ingested block with its invocation
and number, and every report row written, oldest first. -/
structure SqlRecoveryDb (K Rec : Type) where
  tables : IngestDb K
  egressPublicKeys : List (Nat × KexRng.KexRngPubkey)
  blockRecords : List (Nat × Nat × List Rec)
  reports : List (ReportRow K)

namespace SqlRecoveryDb

variable {K Rec : Type} [DecidableEq K]

/-- The empty database of a new deployment. -/
def empty : SqlRecoveryDb K Rec :=
  ⟨IngestDb.empty, [], [], []⟩

/-! ## The operations -/

/-- {lit}`get_ingress_key_status`. -/
def getIngressKeyStatus (db : SqlRecoveryDb K Rec) (key : K) : Option IngressPublicKeyStatus :=
  db.tables.getIngressKeyStatus key

/-- {lit}`get_last_scanned_block_index`. -/
def getLastScannedBlockIndex (db : SqlRecoveryDb K Rec) (key : K) : Option Nat :=
  db.tables.getLastScannedBlockIndex key

/-- {lit}`get_highest_known_block_index`. -/
def getHighestKnownBlockIndex (db : SqlRecoveryDb K Rec) : Option Nat :=
  db.tables.getHighestKnownBlockIndex

/-- {lit}`new_ingress_key`: whether the key was inserted. -/
def newIngressKey (db : SqlRecoveryDb K Rec) (key : K) (startBlock : Nat) :
    Bool × SqlRecoveryDb K Rec :=
  let r := db.tables.newIngressKey key startBlock
  (r.1, { db with tables := r.2 })

/-- {lit}`retire_ingress_key`. -/
def retireIngressKey (db : SqlRecoveryDb K Rec) (key : K) (setRetired : Bool) :
    SqlRecoveryDb K Rec :=
  { db with tables := db.tables.retireIngressKey key setRetired }

/-- {lit}`decommission_ingest_invocation`. -/
def decommissionIngestInvocation (db : SqlRecoveryDb K Rec) (id : Nat) :
    Except (DbError K) (SqlRecoveryDb K Rec) :=
  (db.tables.decommissionIngestInvocation id).map fun tables => { db with tables }

/-- {lit}`new_ingest_invocation`: the tables' part, with the egress key recorded
under the new id; an egress key already recorded violates its uniqueness. -/
def newIngestInvocation (db : SqlRecoveryDb K Rec) (prevIngestInvocationId : Option Nat)
    (ingressPublicKey : K) (egressPublicKey : KexRng.KexRngPubkey) (startBlock : Nat) :
    Except (DbError K) (Nat × SqlRecoveryDb K Rec) :=
  if db.egressPublicKeys.any (fun e => e.2.publicKey = egressPublicKey.publicKey) then
    .error (.orm .uniqueViolation)
  else
    (db.tables.newIngestInvocation prevIngestInvocationId ingressPublicKey startBlock).map
      fun r => (r.1, { db with
        tables := r.2
        egressPublicKeys := db.egressPublicKeys ++ [(r.1, egressPublicKey)] })

/-- {lit}`add_block_data`: the tables' part, with the records stored beside the
new row; a block already scanned leaves the database as it was. -/
def addBlockData (db : SqlRecoveryDb K Rec) (ingestInvocationId blockIndex : Nat)
    (records : List Rec) : Except (DbError K) (Bool × SqlRecoveryDb K Rec) :=
  (db.tables.addBlockData ingestInvocationId blockIndex).map fun r =>
    (r.1, if r.1 then db else { db with
      tables := r.2
      blockRecords := db.blockRecords ++ [(ingestInvocationId, blockIndex, records)] })

/-- The status {lit}`set_report`'s update leaves on a key that is not retired:
the expiry raised to the report's when that is larger. -/
def raiseExpiry (status : IngressPublicKeyStatus) (pubkeyExpiry : Nat) : IngressPublicKeyStatus :=
  if status.pubkeyExpiry < pubkeyExpiry then { status with pubkeyExpiry } else status

/-- {lit}`set_report`.  The update raises the expiry of a key that is not
retired; when it updates nothing the status is read again, and a missing key
is an error.  A retired key's status is returned with no row written;
otherwise the row is written, and a report naming an unknown invocation
violates the foreign key of {lit}`reports`. -/
def setReport (db : SqlRecoveryDb K Rec) (ingressKey : K) (reportId : String)
    (data : ReportData) : Except (DbError K) (IngressPublicKeyStatus × SqlRecoveryDb K Rec) :=
  match db.tables.ingressKeys ingressKey with
  | none => .error (.missingIngressKey ingressKey)
  | some status =>
      if status.retired then .ok (status, db)
      else if !(data.ingestInvocationId.all fun id => (db.tables.ingestInvocations id).isSome) then
        .error (.orm .foreignKeyViolation)
      else
        let result := raiseExpiry status data.pubkeyExpiry
        .ok (result, { db with
          tables := { db.tables with
            ingressKeys := Function.update db.tables.ingressKeys ingressKey (some result) }
          reports := db.reports ++ [⟨reportId, ingressKey, data.ingestInvocationId, data.pubkeyExpiry⟩] })

/-! ## What the operations do -/

/-- Raising the expiry keeps the start block. -/
@[simp]
theorem raiseExpiry_startBlock (status : IngressPublicKeyStatus) (e : Nat) :
    (raiseExpiry status e).startBlock = status.startBlock := by
  unfold raiseExpiry
  split <;> rfl

/-- Raising the expiry keeps the retired flag. -/
@[simp]
theorem raiseExpiry_retired (status : IngressPublicKeyStatus) (e : Nat) :
    (raiseExpiry status e).retired = status.retired := by
  unfold raiseExpiry
  split <;> rfl

/-- The raised expiry is at least the old one and the one published. -/
theorem le_raiseExpiry (status : IngressPublicKeyStatus) (e : Nat) :
    status.pubkeyExpiry ≤ (raiseExpiry status e).pubkeyExpiry ∧
      e ≤ (raiseExpiry status e).pubkeyExpiry := by
  unfold raiseExpiry
  split
  · rename_i hlt
    exact ⟨Nat.le_of_lt hlt, le_rfl⟩
  · rename_i hge
    exact ⟨le_rfl, Nat.le_of_not_lt hge⟩

/-- Exactly what a successful {lit}`set_report` does. -/
theorem setReport_eq_ok_iff {db db' : SqlRecoveryDb K Rec} {key : K} {reportId : String}
    {data : ReportData} {result : IngressPublicKeyStatus} :
    db.setReport key reportId data = .ok (result, db') ↔
      ∃ status, db.tables.ingressKeys key = some status ∧
        ((status.retired = true ∧ result = status ∧ db' = db) ∨
          (status.retired = false ∧
            (data.ingestInvocationId.all fun id => (db.tables.ingestInvocations id).isSome) ∧
            result = raiseExpiry status data.pubkeyExpiry ∧
            db' = { db with
              tables := { db.tables with
                ingressKeys := Function.update db.tables.ingressKeys key (some result) }
              reports := db.reports ++ [⟨reportId, key, data.ingestInvocationId,
                data.pubkeyExpiry⟩] })) := by
  unfold setReport
  cases hkey : db.tables.ingressKeys key with
  | none => simp
  | some status =>
      simp only [Option.some.injEq, exists_eq_left']
      cases hretired : status.retired with
      | true =>
          simp only [if_true, Except.ok.injEq, Prod.mk.injEq, true_and, Bool.true_eq_false,
            false_and, or_false]
          constructor
          · rintro ⟨rfl, rfl⟩
            exact ⟨rfl, rfl⟩
          · rintro ⟨rfl, rfl⟩
            exact ⟨rfl, rfl⟩
      | false =>
          simp only [Bool.false_eq_true, if_false, false_and, false_or, true_and]
          cases hfk : data.ingestInvocationId.all fun id => (db.tables.ingestInvocations id).isSome
          · simp
          · simp only [Bool.not_true, Bool.false_eq_true, if_false, Except.ok.injEq,
              Prod.mk.injEq, true_and]
            constructor
            · rintro ⟨rfl, rfl⟩
              exact ⟨rfl, rfl⟩
            · rintro ⟨rfl, rfl⟩
              exact ⟨rfl, rfl⟩

/-- Every stored report has an expiry at most its key's current one. -/
def ReportsBounded (db : SqlRecoveryDb K Rec) : Prop :=
  ∀ row ∈ db.reports, ∃ status, db.tables.ingressKeys row.ingressPublicKey = some status ∧
    row.pubkeyExpiry ≤ status.pubkeyExpiry

/-- {lit}`set_report` keeps every stored report below its key's expiry: the
row it writes has the raised expiry as its bound, and no key's expiry goes
down. -/
theorem reportsBounded_setReport {db db' : SqlRecoveryDb K Rec} {key : K} {reportId : String}
    {data : ReportData} {result : IngressPublicKeyStatus} (hb : db.ReportsBounded)
    (h : db.setReport key reportId data = .ok (result, db')) : db'.ReportsBounded := by
  obtain ⟨status, hkey, ⟨-, -, rfl⟩ | ⟨-, -, rfl, rfl⟩⟩ := setReport_eq_ok_iff.1 h
  · exact hb
  · intro row hrow
    rcases List.mem_append.1 hrow with hold | hnew
    · obtain ⟨s, hs, hle⟩ := hb row hold
      by_cases hk : row.ingressPublicKey = key
      · refine ⟨raiseExpiry status data.pubkeyExpiry, by simp [hk], ?_⟩
        rw [hk, hkey, Option.some.injEq] at hs
        subst hs
        exact hle.trans (le_raiseExpiry _ _).1
      · exact ⟨s, by simpa [Function.update_of_ne hk] using hs, hle⟩
    · rw [List.mem_singleton] at hnew
      subst hnew
      exact ⟨raiseExpiry status data.pubkeyExpiry, by simp, (le_raiseExpiry _ _).2⟩

/-- A report row is written only for a key that is not retired, with the
expiry of the data. -/
theorem reports_setReport {db db' : SqlRecoveryDb K Rec} {key : K} {reportId : String}
    {data : ReportData} {result : IngressPublicKeyStatus}
    (h : db.setReport key reportId data = .ok (result, db')) :
    db'.reports = db.reports ∨
      ((db.tables.ingressKeys key).map (·.retired) = some false ∧
        db'.reports = db.reports ++ [⟨reportId, key, data.ingestInvocationId, data.pubkeyExpiry⟩]) := by
  obtain ⟨status, hkey, ⟨-, -, rfl⟩ | ⟨hretired, -, -, rfl⟩⟩ := setReport_eq_ok_iff.1 h
  · exact .inl rfl
  · exact .inr ⟨by rw [hkey, Option.map_some, hretired], rfl⟩

/-- What {lit}`set_report` returns for a key is the key's status after it. -/
theorem ingressKeys_setReport {db db' : SqlRecoveryDb K Rec} {key : K} {reportId : String}
    {data : ReportData} {result : IngressPublicKeyStatus}
    (h : db.setReport key reportId data = .ok (result, db')) :
    db'.tables.ingressKeys key = some result := by
  obtain ⟨status, hkey, ⟨-, rfl, rfl⟩ | ⟨-, -, rfl, rfl⟩⟩ := setReport_eq_ok_iff.1 h
  · exact hkey
  · simp

/-- A successful {lit}`add_block_data` either found the block scanned and
changed nothing, or appended its row and its records. -/
theorem addBlockData_eq_ok_iff {db db' : SqlRecoveryDb K Rec} {id blockIndex : Nat}
    {records : List Rec} {scanned : Bool} :
    db.addBlockData id blockIndex records = .ok (scanned, db') ↔
      ∃ inv, db.tables.ingestInvocations id = some inv ∧
        (db.tables.ingressKeys inv.ingressPublicKey).isSome ∧
        scanned = db.tables.blockScanned inv.ingressPublicKey id blockIndex ∧
        db' = if scanned then db else
          { db with
            tables := { db.tables with
              ingestedBlocks := db.tables.ingestedBlocks ++ [⟨inv.ingressPublicKey, id, blockIndex⟩] }
            blockRecords := db.blockRecords ++ [(id, blockIndex, records)] } := by
  unfold addBlockData
  constructor
  · intro h
    obtain ⟨⟨scanned', tables'⟩, htables, hpair⟩ := Except.map_eq_ok.1 h
    obtain ⟨inv, hinv, hkey, hscanned, rfl⟩ := IngestDb.addBlockData_eq_ok_iff.1 htables
    simp only [Prod.mk.injEq] at hpair
    obtain ⟨rfl, rfl⟩ := hpair
    refine ⟨inv, hinv, hkey, hscanned, ?_⟩
    cases scanned' <;> simp
  · rintro ⟨inv, hinv, hkey, hscanned, rfl⟩
    refine Except.map_eq_ok.2 ⟨(scanned, if scanned then db.tables else
      { db.tables with
        ingestedBlocks := db.tables.ingestedBlocks ++ [⟨inv.ingressPublicKey, id, blockIndex⟩] }),
      IngestDb.addBlockData_eq_ok_iff.2 ⟨inv, hinv, hkey, hscanned, rfl⟩, ?_⟩
    cases scanned <;> simp

omit [DecidableEq K] in
/-- A new invocation is recorded under its id with its ingress key. -/
theorem ingestInvocations_newIngestInvocation {db db' : SqlRecoveryDb K Rec} {prev : Option Nat}
    {key : K} {egress : KexRng.KexRngPubkey} {startBlock id : Nat}
    (h : db.newIngestInvocation prev key egress startBlock = .ok (id, db')) :
    db'.tables.ingestInvocations id =
      some { ingressPublicKey := key, startBlock, decommissioned := false } := by
  unfold newIngestInvocation at h
  split at h
  · cases h
  · obtain ⟨⟨id', tables⟩, htables, hpair⟩ := Except.map_eq_ok.1 h
    cases hpair
    exact IngestDb.ingestInvocations_newIngestInvocation htables

/-! ## What the transactions leave alone

Only {lit}`set_report` writes reports, and only it and {lit}`new_ingress_key`
write the key table; neither changes a retired key that exists. -/

omit [DecidableEq K] in
/-- A new invocation writes no report and changes no key. -/
theorem newIngestInvocation_frame {db db' : SqlRecoveryDb K Rec} {prev : Option Nat} {key : K}
    {egress : KexRng.KexRngPubkey} {startBlock id : Nat}
    (h : db.newIngestInvocation prev key egress startBlock = .ok (id, db')) :
    db'.reports = db.reports ∧ db'.tables.ingressKeys = db.tables.ingressKeys := by
  unfold newIngestInvocation at h
  split at h
  · cases h
  · obtain ⟨⟨id', tables⟩, htables, hpair⟩ := Except.map_eq_ok.1 h
    cases hpair
    exact ⟨rfl, (IngestDb.newIngestInvocation_frame htables).1⟩

/-- Adding a block writes no report and changes no key. -/
theorem addBlockData_frame {db db' : SqlRecoveryDb K Rec} {id blockIndex : Nat}
    {records : List Rec} {scanned : Bool}
    (h : db.addBlockData id blockIndex records = .ok (scanned, db')) :
    db'.reports = db.reports ∧ db'.tables.ingressKeys = db.tables.ingressKeys := by
  obtain ⟨inv, -, -, -, rfl⟩ := addBlockData_eq_ok_iff.1 h
  split <;> exact ⟨rfl, rfl⟩

omit [DecidableEq K] in
/-- A decommission writes no report and changes no key. -/
theorem decommissionIngestInvocation_frame {db db' : SqlRecoveryDb K Rec} {id : Nat}
    (h : db.decommissionIngestInvocation id = .ok db') :
    db'.reports = db.reports ∧ db'.tables.ingressKeys = db.tables.ingressKeys := by
  obtain ⟨tables, htables, rfl⟩ := Except.map_eq_ok.1 h
  exact ⟨rfl, (IngestDb.decommissionIngestInvocation_frame htables).1⟩

/-- A key that exists keeps its status when a key is created. -/
theorem ingressKeys_newIngressKey_of_some {db : SqlRecoveryDb K Rec} {key k : K}
    {startBlock : Nat} {status : IngressPublicKeyStatus}
    (hk : db.tables.ingressKeys k = some status) :
    (db.newIngressKey key startBlock).2.tables.ingressKeys k = some status := by
  unfold newIngressKey IngestDb.newIngressKey
  split
  · exact hk
  · rename_i hnone
    have hne : k ≠ key := by
      rintro rfl
      rw [hk] at hnone
      cases hnone
    simpa [Function.update_of_ne hne] using hk

/-- A retired key keeps its status through a report. -/
theorem ingressKeys_setReport_of_retired {db db' : SqlRecoveryDb K Rec} {key k : K}
    {reportId : String} {data : ReportData} {result : IngressPublicKeyStatus}
    {status : IngressPublicKeyStatus} (hk : db.tables.ingressKeys k = some status)
    (hretired : status.retired = true)
    (h : db.setReport key reportId data = .ok (result, db')) :
    db'.tables.ingressKeys k = some status := by
  obtain ⟨status', hkey, ⟨-, -, rfl⟩ | ⟨hretired', -, -, rfl⟩⟩ := setReport_eq_ok_iff.1 h
  · exact hk
  · have hne : k ≠ key := by
      rintro rfl
      rw [hk, Option.some.injEq] at hkey
      subst hkey
      rw [hretired] at hretired'
      cases hretired'
    simpa [Function.update_of_ne hne] using hk

/-- The status of another key is left as it is by a retirement. -/
theorem ingressKeys_retireIngressKey_of_ne {db : SqlRecoveryDb K Rec} {key k : K}
    {setRetired : Bool} (hne : k ≠ key) :
    (db.retireIngressKey key setRetired).tables.ingressKeys k = db.tables.ingressKeys k := by
  simp [retireIngressKey, IngestDb.retireIngressKey, Function.update_of_ne hne]

/-- Retiring a retired key leaves its status as it is. -/
theorem ingressKeys_retireIngressKey_true {db : SqlRecoveryDb K Rec} {key : K}
    {status : IngressPublicKeyStatus} (hk : db.tables.ingressKeys key = some status)
    (hretired : status.retired = true) :
    (db.retireIngressKey key true).tables.ingressKeys key = some status := by
  cases status
  simp_all [retireIngressKey, IngestDb.retireIngressKey]

/-! ## The database only grows -/

/-- The database {lit}`db'` extends {lit}`db`: the tables grow, and the egress
keys, block records and reports are only appended. -/
structure Grows (db db' : SqlRecoveryDb K Rec) : Prop where
  tables : db.tables.Grows db'.tables
  egressPublicKeys : List.IsPrefix db.egressPublicKeys db'.egressPublicKeys
  blockRecords : List.IsPrefix db.blockRecords db'.blockRecords
  reports : List.IsPrefix db.reports db'.reports

omit [DecidableEq K] in
/-- Every database extends itself. -/
theorem Grows.refl (db : SqlRecoveryDb K Rec) : Grows db db :=
  ⟨IngestDb.Grows.refl _, List.prefix_refl _, List.prefix_refl _, List.prefix_refl _⟩

omit [DecidableEq K] in
/-- Extension is transitive. -/
theorem Grows.trans {db db' db'' : SqlRecoveryDb K Rec} (h : Grows db db') (h' : Grows db' db'') :
    Grows db db'' :=
  ⟨h.tables.trans h'.tables, h.egressPublicKeys.trans h'.egressPublicKeys,
    h.blockRecords.trans h'.blockRecords, h.reports.trans h'.reports⟩

omit [DecidableEq K] in
/-- A change of the tables alone that grows them grows the database. -/
theorem grows_of_tables {db : SqlRecoveryDb K Rec} {tables : IngestDb K}
    (h : db.tables.Grows tables) : Grows db { db with tables } :=
  ⟨h, List.prefix_refl _, List.prefix_refl _, List.prefix_refl _⟩

/-- Adding an ingress key extends the database. -/
theorem grows_newIngressKey (db : SqlRecoveryDb K Rec) (key : K) (startBlock : Nat) :
    Grows db (db.newIngressKey key startBlock).2 :=
  grows_of_tables (IngestDb.grows_newIngressKey _ _ _)

/-- Retiring or unretiring a key extends the database. -/
theorem grows_retireIngressKey (db : SqlRecoveryDb K Rec) (key : K) (setRetired : Bool) :
    Grows db (db.retireIngressKey key setRetired) :=
  grows_of_tables (IngestDb.grows_retireIngressKey _ _ _)

omit [DecidableEq K] in
/-- A successful decommission extends the database. -/
theorem grows_decommissionIngestInvocation {db db' : SqlRecoveryDb K Rec} {id : Nat}
    (h : db.decommissionIngestInvocation id = .ok db') : Grows db db' := by
  obtain ⟨tables, htables, rfl⟩ := Except.map_eq_ok.1 h
  exact grows_of_tables (IngestDb.grows_decommissionIngestInvocation htables)

omit [DecidableEq K] in
/-- A successful new invocation extends the database. -/
theorem grows_newIngestInvocation {db db' : SqlRecoveryDb K Rec} {prev : Option Nat} {key : K}
    {egress : KexRng.KexRngPubkey} {startBlock id : Nat}
    (h : db.newIngestInvocation prev key egress startBlock = .ok (id, db')) : Grows db db' := by
  unfold newIngestInvocation at h
  split at h
  · cases h
  · obtain ⟨⟨id', tables⟩, htables, hpair⟩ := Except.map_eq_ok.1 h
    cases hpair
    exact ⟨IngestDb.grows_newIngestInvocation htables, List.prefix_append _ _,
      List.prefix_refl _, List.prefix_refl _⟩

/-- A successful addition of a block extends the database. -/
theorem grows_addBlockData {db db' : SqlRecoveryDb K Rec} {id blockIndex : Nat}
    {records : List Rec} {scanned : Bool}
    (h : db.addBlockData id blockIndex records = .ok (scanned, db')) : Grows db db' := by
  obtain ⟨inv, -, -, -, rfl⟩ := addBlockData_eq_ok_iff.1 h
  split
  · exact Grows.refl db
  · exact ⟨⟨fun _ s hs => ⟨s, hs, rfl, le_rfl⟩, fun _ row h => ⟨row, h, rfl⟩, le_rfl,
      List.prefix_append _ _, List.prefix_refl _⟩, List.prefix_refl _, List.prefix_append _ _,
      List.prefix_refl _⟩

/-- A successful report extends the database. -/
theorem grows_setReport {db db' : SqlRecoveryDb K Rec} {key : K} {reportId : String}
    {data : ReportData} {result : IngressPublicKeyStatus}
    (h : db.setReport key reportId data = .ok (result, db')) : Grows db db' := by
  obtain ⟨status, hkey, ⟨-, -, rfl⟩ | ⟨-, -, rfl, rfl⟩⟩ := setReport_eq_ok_iff.1 h
  · exact Grows.refl _
  · refine ⟨IngestDb.grows_of_ingressKeys (fun k s hs => ?_) rfl rfl rfl rfl,
      List.prefix_refl _, List.prefix_refl _, List.prefix_append _ _⟩
    by_cases hk : k = key
    · subst hk
      rw [hkey, Option.some.injEq] at hs
      subst hs
      exact ⟨raiseExpiry status data.pubkeyExpiry, by simp, raiseExpiry_startBlock _ _,
        (le_raiseExpiry _ _).1⟩
    · exact ⟨s, by simpa [Function.update_of_ne hk] using hs, rfl, le_rfl⟩

omit [DecidableEq K] in
/-- The empty database has no report to bound. -/
theorem reportsBounded_empty : (empty : SqlRecoveryDb K Rec).ReportsBounded :=
  fun _ h => by cases h

omit [DecidableEq K] in
/-- A change that grows the database and writes no report keeps every report
below its key's expiry. -/
theorem ReportsBounded.of_grows {db db' : SqlRecoveryDb K Rec} (hb : db.ReportsBounded)
    (hg : Grows db db') (hreports : db'.reports = db.reports) : db'.ReportsBounded := by
  intro row hrow
  rw [hreports] at hrow
  obtain ⟨status, hs, hle⟩ := hb row hrow
  obtain ⟨status', hs', -, hexp⟩ := hg.tables.keys _ status hs
  exact ⟨status', hs', hle.trans hexp⟩

/-! ## Contiguous scans

The blocks scanned with a key form an interval that begins at the key's start
block, and a server may only hold a next block index from that start block to
one past the interval's end.  The uniqueness of
{lit}`(ingress_public_key, block_number)` then keeps the interval whole: a
block inside it is refused as already scanned, so only the block after its
end can be added. -/

/-- The blocks scanned with each key form, in the order inserted, the interval
from its start block, and every scanned block's key exists. -/
structure ScansContiguous (db : SqlRecoveryDb K Rec) : Prop where
  contiguous : ∀ k status, db.tables.ingressKeys k = some status →
    db.tables.scannedBlocks k = List.range' status.startBlock (db.tables.scannedBlocks k).length
  keyed : ∀ row ∈ db.tables.ingestedBlocks, (db.tables.ingressKeys row.ingressPublicKey).isSome

/-- A next block index a server scanning with the key may hold: from the key's
start block to one past its last scanned block. -/
def InRange (db : SqlRecoveryDb K Rec) (key : K) (next : Nat) : Prop :=
  ∃ status, db.tables.ingressKeys key = some status ∧ status.startBlock ≤ next ∧
    next ≤ status.startBlock + (db.tables.scannedBlocks key).length

/-- The empty database has no scanned block. -/
theorem scansContiguous_empty : (empty : SqlRecoveryDb K Rec).ScansContiguous where
  contiguous _ _ h := by cases h
  keyed _ h := by cases h

/-- The blocks scanned with a key after a row is appended. -/
theorem scannedBlocks_append (tables : IngestDb K) (row : IngestedBlockRow K) (k : K) :
    ({ tables with ingestedBlocks := tables.ingestedBlocks ++ [row] } : IngestDb K).scannedBlocks k =
      tables.scannedBlocks k ++ if row.ingressPublicKey = k then [row.blockNumber] else [] := by
  unfold IngestDb.scannedBlocks
  rw [List.filter_append, List.map_append]
  congr 1
  by_cases h : row.ingressPublicKey = k <;> simp [h]

/-- The blocks scanned with a key only grow. -/
theorem length_scannedBlocks_le {db db' : SqlRecoveryDb K Rec} (hg : Grows db db') (k : K) :
    (db.tables.scannedBlocks k).length ≤ (db'.tables.scannedBlocks k).length :=
  ((hg.tables.blocks.filter _).map _).length_le

/-- A next block in range stays in range as the database grows. -/
theorem InRange.mono {db db' : SqlRecoveryDb K Rec} {k : K} {next : Nat} (hg : Grows db db')
    (h : InRange db k next) : InRange db' k next := by
  obtain ⟨status, hs, hstart, hle⟩ := h
  obtain ⟨status', hs', hsame, -⟩ := hg.tables.keys k status hs
  exact ⟨status', hs', hsame ▸ hstart, hsame ▸ hle.trans (Nat.add_le_add_left
    (length_scannedBlocks_le hg k) _)⟩

/-- A key with no row scans nothing. -/
theorem scannedBlocks_eq_nil {db : SqlRecoveryDb K Rec} (h : db.ScansContiguous) {k : K}
    (hk : db.tables.ingressKeys k = none) : db.tables.scannedBlocks k = [] := by
  unfold IngestDb.scannedBlocks
  rw [List.map_eq_nil_iff, List.filter_eq_nil_iff]
  intro row hrow heq
  have hkey := h.keyed row hrow
  rw [of_decide_eq_true heq, hk] at hkey
  cases hkey

/-- A change that grows the database and adds no block keeps the scans
contiguous: a key keeps its start block and its blocks, and a new key has
none. -/
theorem ScansContiguous.of_grows {db db' : SqlRecoveryDb K Rec} (h : db.ScansContiguous)
    (hg : Grows db db') (hblocks : db'.tables.ingestedBlocks = db.tables.ingestedBlocks) :
    db'.ScansContiguous := by
  have hscan : ∀ k, db'.tables.scannedBlocks k = db.tables.scannedBlocks k := fun k => by
    unfold IngestDb.scannedBlocks
    rw [hblocks]
  refine ⟨fun k status' hs' => ?_, fun row hrow => ?_⟩
  · rw [hscan]
    cases hs : db.tables.ingressKeys k with
    | none => rw [scannedBlocks_eq_nil h hs]; rfl
    | some status =>
        obtain ⟨status'', hs'', hsame, -⟩ := hg.tables.keys k status hs
        rw [hs', Option.some.injEq] at hs''
        subst hs''
        rw [hsame]
        exact h.contiguous k status hs
  · rw [hblocks] at hrow
    obtain ⟨status, hs⟩ := Option.isSome_iff_exists.1 (h.keyed row hrow)
    obtain ⟨status', hs', -, -⟩ := hg.tables.keys _ status hs
    rw [hs']
    rfl

/-! ### The transactions that add no block -/

/-- Adding an ingress key keeps the scans contiguous. -/
theorem ScansContiguous.newIngressKey {db : SqlRecoveryDb K Rec} (h : db.ScansContiguous)
    (key : K) (startBlock : Nat) : (db.newIngressKey key startBlock).2.ScansContiguous := by
  refine h.of_grows (grows_newIngressKey db key startBlock) ?_
  unfold SqlRecoveryDb.newIngressKey IngestDb.newIngressKey
  split <;> rfl

/-- Retiring a key keeps the scans contiguous. -/
theorem ScansContiguous.retireIngressKey {db : SqlRecoveryDb K Rec} (h : db.ScansContiguous)
    (key : K) (setRetired : Bool) : (db.retireIngressKey key setRetired).ScansContiguous :=
  h.of_grows (grows_retireIngressKey db key setRetired) rfl

/-- A decommission keeps the scans contiguous. -/
theorem ScansContiguous.decommissionIngestInvocation {db db' : SqlRecoveryDb K Rec}
    (h : db.ScansContiguous) {id : Nat} (hdec : db.decommissionIngestInvocation id = .ok db') :
    db'.ScansContiguous := by
  refine h.of_grows (grows_decommissionIngestInvocation hdec) ?_
  obtain ⟨tables, htables, rfl⟩ := Except.map_eq_ok.1 hdec
  exact (IngestDb.decommissionIngestInvocation_frame htables).2

/-- A new invocation keeps the scans contiguous. -/
theorem ScansContiguous.newIngestInvocation {db db' : SqlRecoveryDb K Rec}
    (h : db.ScansContiguous) {prev : Option Nat} {key : K} {egress : KexRng.KexRngPubkey}
    {startBlock id : Nat} (hnew : db.newIngestInvocation prev key egress startBlock = .ok (id, db')) :
    db'.ScansContiguous := by
  refine h.of_grows (grows_newIngestInvocation hnew) ?_
  unfold SqlRecoveryDb.newIngestInvocation at hnew
  split at hnew
  · cases hnew
  · obtain ⟨⟨id', tables⟩, htables, hpair⟩ := Except.map_eq_ok.1 hnew
    cases hpair
    exact (IngestDb.newIngestInvocation_frame htables).2

/-- A report keeps the scans contiguous. -/
theorem ScansContiguous.setReport {db db' : SqlRecoveryDb K Rec} (h : db.ScansContiguous)
    {key : K} {reportId : String} {data : ReportData} {result : IngressPublicKeyStatus}
    (hset : db.setReport key reportId data = .ok (result, db')) : db'.ScansContiguous := by
  refine h.of_grows (grows_setReport hset) ?_
  obtain ⟨status, -, ⟨-, -, rfl⟩ | ⟨-, -, -, rfl⟩⟩ := setReport_eq_ok_iff.1 hset <;> rfl

/-- The block a server in range adds is the one after the interval: a block
inside it is already scanned. -/
theorem eq_of_not_mem_scannedBlocks {db : SqlRecoveryDb K Rec} (h : db.ScansContiguous)
    {k : K} {next : Nat} (hrange : InRange db k next) (hnot : next ∉ db.tables.scannedBlocks k) :
    ∃ status, db.tables.ingressKeys k = some status ∧
      next = status.startBlock + (db.tables.scannedBlocks k).length := by
  obtain ⟨status, hs, hstart, hle⟩ := hrange
  refine ⟨status, hs, ?_⟩
  rw [h.contiguous k status hs, List.mem_range'_1] at hnot
  omega

/-- A block added by an invocation of a key that a server holds in range keeps
the scans contiguous, and moves the range's end past it. -/
theorem ScansContiguous.addBlockData {db db' : SqlRecoveryDb K Rec} (h : db.ScansContiguous)
    {id next : Nat} {records : List Rec} {scanned : Bool} {inv : IngestInvocationRow K}
    (hinv : db.tables.ingestInvocations id = some inv)
    (hrange : InRange db inv.ingressPublicKey next)
    (hadd : db.addBlockData id next records = .ok (scanned, db')) :
    db'.ScansContiguous ∧ (scanned = false → InRange db' inv.ingressPublicKey (next + 1)) := by
  obtain ⟨inv', hinv', hkey, hscanned, rfl⟩ := addBlockData_eq_ok_iff.1 hadd
  rw [hinv, Option.some.injEq] at hinv'
  subst hinv'
  cases scanned with
  | true => exact ⟨h, fun h => by cases h⟩
  | false =>
      simp only [Bool.false_eq_true, if_false]
      have hnot : next ∉ db.tables.scannedBlocks inv.ingressPublicKey := by
        intro hmem
        obtain ⟨row, ⟨hrow, hrk⟩, rfl⟩ : ∃ row, (row ∈ db.tables.ingestedBlocks ∧
            row.ingressPublicKey = inv.ingressPublicKey) ∧ row.blockNumber = next := by
          simpa [IngestDb.scannedBlocks] using hmem
        have : db.tables.blockScanned inv.ingressPublicKey id row.blockNumber = true := by
          simp only [IngestDb.blockScanned, List.any_eq_true, Bool.and_eq_true, Bool.or_eq_true,
            decide_eq_true_eq]
          exact ⟨row, hrow, .inl hrk, rfl⟩
        rw [this] at hscanned
        cases hscanned
      obtain ⟨status, hs, hnext⟩ := eq_of_not_mem_scannedBlocks h hrange hnot
      have hscan : ∀ k, IngestDb.scannedBlocks { db.tables with
          ingestedBlocks := db.tables.ingestedBlocks ++ [⟨inv.ingressPublicKey, id, next⟩] } k =
            db.tables.scannedBlocks k ++ if inv.ingressPublicKey = k then [next] else [] :=
        scannedBlocks_append db.tables _
      refine ⟨⟨fun k status' hs' => ?_, fun row hrow => ?_⟩, fun _ => ?_⟩
      · rw [hscan]
        by_cases hk : inv.ingressPublicKey = k
        · subst hk
          rw [hs, Option.some.injEq] at hs'
          subst hs'
          rw [if_pos rfl, List.length_append, List.length_singleton, List.range'_concat,
            ← h.contiguous _ _ hs, hnext, Nat.one_mul]
        · rw [if_neg hk, List.append_nil]
          exact h.contiguous k status' hs'
      · rcases List.mem_append.1 hrow with hold | hnew
        · exact h.keyed row hold
        · rw [List.mem_singleton] at hnew
          subst hnew
          exact hkey
      · refine ⟨status, hs, by omega, ?_⟩
        rw [hscan, if_pos rfl, List.length_append, List.length_singleton]
        omega

/-- A key just created has its start block in range. -/
theorem inRange_newIngressKey {db : SqlRecoveryDb K Rec} {key : K} {startBlock : Nat}
    (hnew : (db.newIngressKey key startBlock).1 = true) :
    InRange (db.newIngressKey key startBlock).2 key startBlock := by
  cases hk : db.tables.ingressKeys key with
  | some _ => simp [newIngressKey, IngestDb.newIngressKey, hk] at hnew
  | none =>
      have hkey : (db.newIngressKey key startBlock).2.tables.ingressKeys key =
          some ⟨startBlock, 0, false, false⟩ := by
        simp [newIngressKey, IngestDb.newIngressKey, hk]
      exact ⟨_, hkey, le_rfl, Nat.le_add_right _ _⟩

/-- The block after an existing key's last scanned one, or its start block
when none was scanned, is in range. -/
theorem inRange_lastScanned {db : SqlRecoveryDb K Rec} (h : db.ScansContiguous) {key : K}
    {status : IngressPublicKeyStatus} (hs : db.tables.ingressKeys key = some status) :
    InRange db key (((db.getLastScannedBlockIndex key).map (· + 1)).getD status.startBlock) := by
  unfold getLastScannedBlockIndex IngestDb.getLastScannedBlockIndex
  refine ⟨status, hs, ?_⟩
  rw [h.contiguous key status hs, List.length_range']
  cases hlen : (db.tables.scannedBlocks key).length with
  | zero => simp
  | succ n =>
      have hmax : (List.range' status.startBlock (n + 1)).max? = some (status.startBlock + n) := by
        rw [List.max?_eq_some_iff]
        refine ⟨List.mem_range'_1.2 ⟨by omega, by omega⟩, fun b hb => ?_⟩
        have := List.mem_range'_1.1 hb
        omega
      rw [hmax]
      simp only [Option.map_some, Option.getD_some]
      omega

end SqlRecoveryDb

end RecoveryDb
end Fog
