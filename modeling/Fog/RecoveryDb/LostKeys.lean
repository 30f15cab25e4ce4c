import Fog.RecoveryDb.IngestTables
import Fog.Lib.Except

/-!
# Reporting an ingress key lost

{lit}`SqlRecoveryDb::report_lost_ingress_key` and
{lit}`get_missed_block_ranges` of {lit}`fog/sql_recovery_db/src/lib.rs`.  A lost
key is marked lost, and the blocks it promised but did not scan, from the block
after its last scanned one up to its pubkey expiry, are registered as a
missing-blocks user event, which clients download and scan themselves.  A lost
key's record covers the blocks it did scan
({lit}`IngressPublicKeyRecord.coversBlockIndex`), so between the record and the
missing ranges every promised block is accounted for.

The event is inserted into {lit}`user_events`, whose
{lit}`UNIQUE(missing_blocks_start, missing_blocks_end)` refuses a second row with
the same range.  The insertion is not guarded against that, so when the range
of the lost key is already registered (another key lost with the same start
block and expiry and nothing scanned, or the same key reported twice) the
transaction fails and the key is not marked lost.

The assertion of {lit}`NewUserEvent::missing_blocks` that the range is valid
is a panic, modelled as {lean}`none`.

Main results:

- Theorem {lit}`IngestDb.reportLostIngressKey_eq_error_iff`: the call fails
  exactly when the key is missing or its range is already registered.
- Theorem {lit}`IngestDb.reportLostIngressKey_accounts_for_blocks`: after a
  successful call every block the key promised is covered by its lost record
  or lies in a registered missing range, and the range it adds holds only
  blocks it did not scan and that are below the expiry.
-/

namespace Fog
namespace RecoveryDb

namespace IngestDb

variable {K : Type} [DecidableEq K]

/-- The range of blocks a lost key leaves unscanned, as the transaction of
{lit}`report_lost_ingress_key` computes it from the key's status and its last
scanned block; {lean}`none` when it registers no range. -/
def missedBlockRange (status : IngressPublicKeyStatus) (lastScanned : Option Nat) :
    Option BlockRange :=
  let range : BlockRange := ⟨status.startBlock, status.pubkeyExpiry⟩
  match lastScanned with
  | some blockIndex =>
      -- nothing left to scan: no event
      if blockIndex + 1 ≥ range.endBlock then none
      else
        -- the scanned blocks are cut off the front of the range
        let range : BlockRange :=
          ⟨if blockIndex + 1 > range.startBlock then blockIndex + 1 else range.startBlock,
            range.endBlock⟩
        if range.isValid then some range else none
  | none => if range.isValid then some range else none

/-- The {lit}`UPDATE` of {lit}`report_lost_ingress_key`: the key's row, returned
by the statement, now marked lost. -/
def markIngressKeyLost (db : IngestDb K) (key : K) (status : IngressPublicKeyStatus) :
    IngestDb K :=
  { db with ingressKeys := Function.update db.ingressKeys key (some { status with lost := true }) }

/-- {lit}`report_lost_ingress_key`: mark the key lost and register the blocks it
left unscanned.  The outer {lean}`none` is the panic of the event's assertion. -/
def reportLostIngressKey (db : IngestDb K) (lostIngressKey : K) :
    Option (Except (DbError K) (IngestDb K)) :=
  match db.ingressKeys lostIngressKey with
  | none => some (.error (.missingIngressKey lostIngressKey))
  | some status =>
      let db' := db.markIngressKeyLost lostIngressKey status
      match missedBlockRange status (db'.getLastScannedBlockIndex lostIngressKey) with
      | none => some (.ok db')
      | some range => (NewUserEvent.missingBlocks range).map db'.insertUserEvent

/-- {lit}`get_missed_block_ranges`: the ranges of the missing-blocks events in
id order; a row lacking one of its two columns is a schema violation. -/
def getMissedBlockRanges (db : IngestDb K) : Except Error (List BlockRange) :=
  (db.userEvents.filter (·.event.eventType = .missingBlocks)).mapM fun row =>
    match row.event.missingBlocksStart, row.event.missingBlocksEnd with
    | some startBlock, some endBlock => .ok ⟨startBlock, endBlock⟩
    | _, _ => .error (.userEventSchemaViolation row.id "missing start or end block indices")

/-- The record the view server reads for a key
({lit}`get_ingress_key_records`): its status and last scanned block. -/
def ingressKeyRecord (db : IngestDb K) (key : K) : Option (IngressPublicKeyRecord K) :=
  (db.ingressKeys key).map fun status => ⟨key, status, db.getLastScannedBlockIndex key⟩

/-! ## The missed range -/

/-- A registered range is valid, ends at the expiry, starts no earlier than the
start block, and starts after the last scanned block. -/
theorem missedBlockRange_bounds {status : IngressPublicKeyStatus} {lastScanned : Option Nat}
    {range : BlockRange} (h : missedBlockRange status lastScanned = some range) :
    range.startBlock < range.endBlock ∧ range.endBlock = status.pubkeyExpiry ∧
      status.startBlock ≤ range.startBlock ∧ ∀ l, lastScanned = some l → l < range.startBlock := by
  unfold missedBlockRange at h
  cases lastScanned with
  | none =>
      simp only [Option.ite_some_none_eq_some, BlockRange.isValid_iff] at h
      obtain ⟨hvalid, rfl⟩ := h
      exact ⟨hvalid, rfl, le_rfl, fun l hl => by cases hl⟩
  | some l =>
      by_cases hend : l + 1 ≥ status.pubkeyExpiry
      · simp [hend] at h
      · simp only [hend, if_false, Option.ite_some_none_eq_some, BlockRange.isValid_iff] at h
        obtain ⟨hvalid, rfl⟩ := h
        refine ⟨hvalid, rfl, ?_, ?_⟩
        · dsimp only
          split <;> omega
        · rintro l' ⟨⟩
          dsimp only
          split <;> omega

/-- Every block from the start block below the expiry was scanned with the key
or lies in the registered range. -/
theorem scanned_or_mem_missedBlockRange (status : IngressPublicKeyStatus)
    (lastScanned : Option Nat) {b : Nat} (hstart : status.startBlock ≤ b)
    (hexp : b < status.pubkeyExpiry) :
    (∃ l, lastScanned = some l ∧ b ≤ l) ∨
      ∃ range, missedBlockRange status lastScanned = some range ∧ range.contains b = true := by
  unfold missedBlockRange
  cases lastScanned with
  | none =>
      right
      have hvalid : status.startBlock < status.pubkeyExpiry := by omega
      refine ⟨⟨status.startBlock, status.pubkeyExpiry⟩, ?_, ?_⟩
      · simp [hvalid]
      · simp only [BlockRange.contains_iff]
        omega
  | some l =>
      by_cases hle : b ≤ l
      · exact Or.inl ⟨l, rfl, hle⟩
      right
      have hend : ¬ l + 1 ≥ status.pubkeyExpiry := by omega
      let start := if l + 1 > status.startBlock then l + 1 else status.startBlock
      have hstart' : start ≤ b := by
        show (if l + 1 > status.startBlock then l + 1 else status.startBlock) ≤ b
        split <;> omega
      have hvalid : start < status.pubkeyExpiry := by omega
      refine ⟨⟨start, status.pubkeyExpiry⟩, ?_, ?_⟩
      · simp only [hend, if_false]
        exact if_pos ((BlockRange.isValid_iff _).2 hvalid)
      · simp only [BlockRange.contains_iff]
        omega

/-! ## What the call does -/

/-- Marking a key lost sets its lost flag and leaves the other keys. -/
@[simp]
theorem markIngressKeyLost_ingressKeys (db : IngestDb K) (key : K)
    (status : IngressPublicKeyStatus) :
    (db.markIngressKeyLost key status).ingressKeys =
      Function.update db.ingressKeys key (some { status with lost := true }) :=
  rfl

/-- Marking a key lost leaves every key's last scanned block. -/
@[simp]
theorem getLastScannedBlockIndex_markIngressKeyLost (db : IngestDb K) (key key' : K)
    (status : IngressPublicKeyStatus) :
    (db.markIngressKeyLost key status).getLastScannedBlockIndex key' =
      db.getLastScannedBlockIndex key' :=
  rfl

/-- Marking a key lost writes no user event. -/
@[simp]
theorem userEvents_markIngressKeyLost (db : IngestDb K) (key : K)
    (status : IngressPublicKeyStatus) :
    (db.markIngressKeyLost key status).userEvents = db.userEvents :=
  rfl

/-- The event of a valid range is built without failing its assertion. -/
theorem missingBlocks_of_valid {range : BlockRange} (h : range.startBlock < range.endBlock) :
    ∃ e, NewUserEvent.missingBlocks range = some e ∧ e.eventType = .missingBlocks ∧
      e.missingBlocksStart = some range.startBlock ∧ e.missingBlocksEnd = some range.endBlock := by
  refine ⟨⟨.missingBlocks, none, none, some range.startBlock, some range.endBlock⟩, ?_, rfl, rfl,
    rfl⟩
  simp [NewUserEvent.missingBlocks, BlockRange.isValid_iff, h]

/-- The call on an existing key, by the range it registers: none, in which case
it only marks the key lost, or one, whose event it inserts. -/
theorem reportLostIngressKey_of_status {db : IngestDb K} {key : K}
    {status : IngressPublicKeyStatus} (hkey : db.ingressKeys key = some status) :
    (missedBlockRange status (db.getLastScannedBlockIndex key) = none ∧
        db.reportLostIngressKey key = some (.ok (db.markIngressKeyLost key status))) ∨
      ∃ range e, missedBlockRange status (db.getLastScannedBlockIndex key) = some range ∧
        NewUserEvent.missingBlocks range = some e ∧ e.eventType = .missingBlocks ∧
        e.missingBlocksStart = some range.startBlock ∧ e.missingBlocksEnd = some range.endBlock ∧
        db.reportLostIngressKey key = some ((db.markIngressKeyLost key status).insertUserEvent e) := by
  cases hrange : missedBlockRange status (db.getLastScannedBlockIndex key) with
  | none =>
      left
      refine ⟨rfl, ?_⟩
      simp [reportLostIngressKey, hkey, hrange]
  | some range =>
      right
      obtain ⟨e, he, htype, hstart, hend⟩ := missingBlocks_of_valid (missedBlockRange_bounds hrange).1
      refine ⟨range, e, rfl, he, htype, hstart, hend, ?_⟩
      simp [reportLostIngressKey, hkey, hrange, he]

omit [DecidableEq K] in
/-- A missing-blocks event conflicts with the table exactly when a row of the
table holds its range. -/
theorem insertUserEvent_missingBlocks_eq_error_iff {db : IngestDb K} {range : BlockRange}
    {e : NewUserEvent} (he : NewUserEvent.missingBlocks range = some e) {err : DbError K} :
    db.insertUserEvent e = .error err ↔
      err = .orm .uniqueViolation ∧
        ∃ row ∈ db.userEvents, row.event.missingBlocksStart = some range.startBlock ∧
          row.event.missingBlocksEnd = some range.endBlock := by
  have href : db.referencesExist e = true := by
    unfold NewUserEvent.missingBlocks at he
    split at he
    · cases he
      rfl
    · cases he
  have hconf : ∀ row : UserEvent, conflictsWith e row.event = true ↔
      row.event.missingBlocksStart = some range.startBlock ∧
        row.event.missingBlocksEnd = some range.endBlock :=
    fun row => conflictsWith_missingBlocks he row.event
  unfold insertUserEvent
  simp only [href, Bool.not_true, Bool.false_eq_true, if_false]
  by_cases hany : db.userEvents.any (fun row => conflictsWith e row.event) = true
  · rw [if_pos hany]
    obtain ⟨row, hrow, hc⟩ := List.any_eq_true.1 hany
    simp only [Except.error.injEq]
    exact ⟨fun h => ⟨h.symm, row, hrow, (hconf row).1 hc⟩, fun h => h.1.symm⟩
  · rw [if_neg hany]
    simp only [reduceCtorEq, false_iff, not_and, not_exists]
    intro _ row hrow hstart hend
    exact hany (List.any_eq_true.2 ⟨row, hrow, (hconf row).2 ⟨hstart, hend⟩⟩)

/-- The call fails exactly when the key is missing, or when the range it would
register is already the range of a row of {lit}`user_events`: the uniqueness
constraint then refuses the event and the whole transaction, so the key is
not marked lost. -/
theorem reportLostIngressKey_eq_error_iff {db : IngestDb K} {key : K} {err : DbError K} :
    db.reportLostIngressKey key = some (.error err) ↔
      (db.ingressKeys key = none ∧ err = .missingIngressKey key) ∨
        ∃ status range, db.ingressKeys key = some status ∧
          missedBlockRange status (db.getLastScannedBlockIndex key) = some range ∧
          err = .orm .uniqueViolation ∧
          ∃ row ∈ db.userEvents, row.event.missingBlocksStart = some range.startBlock ∧
            row.event.missingBlocksEnd = some range.endBlock := by
  cases hkey : db.ingressKeys key with
  | none =>
      simp only [reportLostIngressKey, hkey, Option.some.injEq, Except.error.injEq, true_and,
        reduceCtorEq, false_and, exists_false, or_false]
      exact eq_comm
  | some status =>
      simp only [reduceCtorEq, false_and, Option.some.injEq, exists_and_left, exists_eq_left',
        false_or]
      rcases reportLostIngressKey_of_status hkey with ⟨hnone, h⟩ | ⟨range, e, hrange, he, -, -, -, h⟩
      · rw [h, hnone]
        simp
      · rw [h, hrange, Option.some.injEq, insertUserEvent_missingBlocks_eq_error_iff he]
        simp

/-- The key's range is refused when another row of {lit}`user_events` already
holds it: the second of two keys lost with the same start block and expiry and
nothing scanned, or a key reported lost twice, is not marked lost. -/
theorem reportLostIngressKey_refuses_registered_range {db : IngestDb K} {key : K}
    {status : IngressPublicKeyStatus} {range : BlockRange}
    (hkey : db.ingressKeys key = some status)
    (hrange : missedBlockRange status (db.getLastScannedBlockIndex key) = some range)
    (hregistered : ∃ row ∈ db.userEvents, row.event.missingBlocksStart = some range.startBlock ∧
      row.event.missingBlocksEnd = some range.endBlock) :
    db.reportLostIngressKey key = some (.error (.orm .uniqueViolation)) :=
  reportLostIngressKey_eq_error_iff.2 (Or.inr ⟨status, range, hkey, hrange, rfl, hregistered⟩)

/-- Two keys with start block 10 and expiry 20 and no scanned block. -/
def twoUnscannedKeys : IngestDb Nat :=
  { (empty : IngestDb Nat) with
    ingressKeys := fun k => if k = 1 ∨ k = 2 then some ⟨10, 20, false, false⟩ else none }

/-- Reporting the first key lost registers the range {lit}`[10, 20)`; reporting
the second then fails on that range. -/
theorem reportLostIngressKey_refuses_registered_range_twoKeys :
    ∃ db₁, twoUnscannedKeys.reportLostIngressKey 1 = some (.ok db₁) ∧
      db₁.reportLostIngressKey 2 = some (.error (.orm .uniqueViolation)) := by
  refine ⟨_, rfl, ?_⟩
  exact reportLostIngressKey_refuses_registered_range (by rfl) (by rfl)
    ⟨_, List.mem_singleton_self _, rfl, rfl⟩

/-! ## What a successful call accounts for -/

/-- The fields of the event of a range. -/
theorem missingBlocks_fields {range : BlockRange} {e : NewUserEvent}
    (he : NewUserEvent.missingBlocks range = some e) :
    e.eventType = .missingBlocks ∧ e.missingBlocksStart = some range.startBlock ∧
      e.missingBlocksEnd = some range.endBlock := by
  unfold NewUserEvent.missingBlocks at he
  split at he
  · cases he
    exact ⟨rfl, rfl, rfl⟩
  · cases he

/-- A well-formed event of the missing-blocks type was built from a range. -/
theorem exists_range_of_wellFormed {e : NewUserEvent} (hwf : e.WellFormed)
    (htype : e.eventType = .missingBlocks) : ∃ range, NewUserEvent.missingBlocks range = some e := by
  rcases hwf with ⟨iid, rfl⟩ | ⟨iid, rfl⟩ | hrange
  · cases htype
  · cases htype
  · exact hrange

omit [DecidableEq K] in
/-- When every row of {lit}`user_events` is one the constructors build, the
missing ranges are read back, and each missing-blocks row gives its range. -/
theorem getMissedBlockRanges_eq_ok {db : IngestDb K}
    (hwf : ∀ row ∈ db.userEvents, row.event.WellFormed) :
    ∃ ranges, db.getMissedBlockRanges = .ok ranges ∧
      ∀ row ∈ db.userEvents, ∀ range, NewUserEvent.missingBlocks range = some row.event →
        range ∈ ranges := by
  have hread : ∀ row ∈ db.userEvents, ∀ range, NewUserEvent.missingBlocks range = some row.event →
      (match row.event.missingBlocksStart, row.event.missingBlocksEnd with
        | some startBlock, some endBlock => (.ok ⟨startBlock, endBlock⟩ : Except Error BlockRange)
        | _, _ => .error (.userEventSchemaViolation row.id "missing start or end block indices")) =
        .ok range := by
    intro row _ range hrange
    obtain ⟨-, hstart, hend⟩ := missingBlocks_fields hrange
    rw [hstart, hend]
  obtain ⟨ranges, hranges⟩ := Except.exists_mapM_eq_ok (l := db.userEvents.filter _) (by
    intro row hrow
    obtain ⟨hmem, htype⟩ := List.mem_filter.1 hrow
    obtain ⟨range, hrange⟩ := exists_range_of_wellFormed (hwf row hmem) (of_decide_eq_true htype)
    exact ⟨range, hread row hmem range hrange⟩)
  refine ⟨ranges, hranges, fun row hrow range hrange => ?_⟩
  have hfilter : row ∈ db.userEvents.filter (·.event.eventType = .missingBlocks) :=
    List.mem_filter.2 ⟨hrow, decide_eq_true (missingBlocks_fields hrange).1⟩
  obtain ⟨range', hmem', heq⟩ := (Except.mapM_eq_ok.1 hranges).exists_of_mem_left hfilter
  rw [hread row hrow range hrange, Except.ok.injEq] at heq
  exact heq ▸ hmem'

omit [DecidableEq K] in
/-- A lost key's record covers exactly the blocks from its start block up to
its last scanned block. -/
theorem coversBlockIndex_of_lost {record : IngressPublicKeyRecord K}
    (hlost : record.status.lost = true) (b : Nat) :
    record.coversBlockIndex b = true ↔
      record.status.startBlock ≤ b ∧ ∃ l, record.lastScannedBlock = some l ∧ b ≤ l := by
  unfold IngressPublicKeyRecord.coversBlockIndex
  cases hlast : record.lastScannedBlock with
  | none => simp [hlost]
  | some l => simp [hlost]

/-- A successful call on an existing key marks it lost and appends at most the
event of its missed range. -/
theorem reportLostIngressKey_eq_ok {db db' : IngestDb K} {key : K}
    {status : IngressPublicKeyStatus} (hkey : db.ingressKeys key = some status)
    (h : db.reportLostIngressKey key = some (.ok db')) :
    db'.ingressKeys = (db.markIngressKeyLost key status).ingressKeys ∧
      db'.ingestedBlocks = db.ingestedBlocks ∧
      ((missedBlockRange status (db.getLastScannedBlockIndex key) = none ∧
          db'.userEvents = db.userEvents) ∨
        ∃ range e, missedBlockRange status (db.getLastScannedBlockIndex key) = some range ∧
          NewUserEvent.missingBlocks range = some e ∧
          db'.userEvents = db.userEvents ++ [⟨db.lastUserEventId + 1, e⟩]) := by
  rcases reportLostIngressKey_of_status hkey with ⟨hnone, h'⟩ | ⟨range, e, hrange, he, -, -, -, h'⟩
  · rw [h', Option.some.injEq, Except.ok.injEq] at h
    subst h
    exact ⟨rfl, rfl, Or.inl ⟨hnone, rfl⟩⟩
  · rw [h', Option.some.injEq] at h
    rw [insertUserEvent_eq_ok h]
    exact ⟨rfl, rfl, Or.inr ⟨range, e, hrange, he, rfl⟩⟩

/-- Losing an ingress key loses no block silently: after a successful call the
key's record is lost, and every block from its start block below its expiry is
covered by the record (it was scanned) or lies in a range that
{lit}`get_missed_block_ranges` returns; the call adds at most one range, whose
blocks were not scanned with the key and lie below the expiry.  The ranges are
read back when every earlier row of {lit}`user_events` is one the constructors
of {lit}`NewUserEvent` build. -/
theorem reportLostIngressKey_accounts_for_blocks {db db' : IngestDb K} {key : K}
    {status : IngressPublicKeyStatus} (hwf : ∀ row ∈ db.userEvents, row.event.WellFormed)
    (hkey : db.ingressKeys key = some status)
    (h : db.reportLostIngressKey key = some (.ok db')) :
    (∃ record ranges, db'.ingressKeyRecord key = some record ∧ record.status.lost = true ∧
        db'.getMissedBlockRanges = .ok ranges ∧
        ∀ b, status.startBlock ≤ b → b < status.pubkeyExpiry →
          record.coversBlockIndex b = true ∨ ∃ range ∈ ranges, range.contains b = true) ∧
      ∃ added, db'.userEvents = db.userEvents ++ added ∧
        ∀ row ∈ added, ∃ range, NewUserEvent.missingBlocks range = some row.event ∧
          ∀ b, range.contains b = true →
            (∀ l, db.getLastScannedBlockIndex key = some l → l < b) ∧ b < status.pubkeyExpiry := by
  obtain ⟨hkeys, hblocks, hevents⟩ := reportLostIngressKey_eq_ok hkey h
  let record : IngressPublicKeyRecord K :=
    ⟨key, { status with lost := true }, db.getLastScannedBlockIndex key⟩
  have hrecord : db'.ingressKeyRecord key = some record := by
    simp only [ingressKeyRecord, hkeys, markIngressKeyLost_ingressKeys, Function.update_self,
      Option.map_some, Option.some.injEq]
    simp only [getLastScannedBlockIndex, scannedBlocks, hblocks, record]
  obtain ⟨added, hadded, hwf', hrange_added⟩ : ∃ added, db'.userEvents = db.userEvents ++ added ∧
      (∀ row ∈ db'.userEvents, row.event.WellFormed) ∧
      (∀ row ∈ added, ∃ range, missedBlockRange status (db.getLastScannedBlockIndex key) =
        some range ∧ NewUserEvent.missingBlocks range = some row.event) := by
    rcases hevents with ⟨-, hsame⟩ | ⟨range, e, hrange, he, happ⟩
    · exact ⟨[], by simp [hsame], fun row hrow => hwf row (hsame ▸ hrow), by simp⟩
    · refine ⟨[⟨db.lastUserEventId + 1, e⟩], happ, fun row hrow => ?_, fun row hrow => ?_⟩
      · rw [happ, List.mem_append, List.mem_singleton] at hrow
        rcases hrow with hrow | rfl
        · exact hwf row hrow
        · exact Or.inr (Or.inr ⟨range, he⟩)
      · rw [List.mem_singleton] at hrow
        subst hrow
        exact ⟨range, hrange, he⟩
  obtain ⟨ranges, hranges, hmem⟩ := getMissedBlockRanges_eq_ok hwf'
  refine ⟨⟨record, ranges, hrecord, rfl, hranges, fun b hstart hexp => ?_⟩, added, hadded,
    fun row hrow => ?_⟩
  · rcases scanned_or_mem_missedBlockRange status (db.getLastScannedBlockIndex key) hstart hexp with
      ⟨l, hl, hle⟩ | ⟨range, hrange, hcontains⟩
    · exact Or.inl ((coversBlockIndex_of_lost rfl b).2 ⟨hstart, l, hl, hle⟩)
    · right
      rcases hevents with ⟨hnone, -⟩ | ⟨range', e, hrange', he, happ⟩
      · rw [hnone] at hrange
        cases hrange
      · rw [hrange] at hrange'
        cases hrange'
        have hlast : (⟨db.lastUserEventId + 1, e⟩ : UserEvent) ∈ db'.userEvents := by
          rw [happ]
          exact List.mem_append_right _ (List.mem_singleton_self _)
        exact ⟨range, hmem _ hlast range he, hcontains⟩
  · obtain ⟨range, hrange, he⟩ := hrange_added row hrow
    obtain ⟨-, hend, -, hafter⟩ := missedBlockRange_bounds hrange
    refine ⟨range, he, fun b hb => ?_⟩
    rw [BlockRange.contains_iff] at hb
    exact ⟨fun l hl => by have := hafter l hl; omega, by omega⟩

/-- Reporting the first of the two keys lost accounts for its blocks 10 to 19:
nothing was scanned, so all of them lie in the registered range. -/
theorem reportLostIngressKey_accounts_for_blocks_firstKey :
    ∃ db₁, twoUnscannedKeys.reportLostIngressKey 1 = some (.ok db₁) ∧
      ∃ record ranges, db₁.ingressKeyRecord 1 = some record ∧
        db₁.getMissedBlockRanges = .ok ranges ∧
        ∀ b, 10 ≤ b → b < 20 →
          record.coversBlockIndex b = true ∨ ∃ range ∈ ranges, range.contains b = true := by
  obtain ⟨⟨record, ranges, hrecord, -, hranges, hcover⟩, -⟩ :=
    @reportLostIngressKey_accounts_for_blocks Nat _ twoUnscannedKeys _ 1 ⟨10, 20, false, false⟩
      (fun _ hrow => absurd hrow List.not_mem_nil) rfl rfl
  exact ⟨_, rfl, record, ranges, hrecord, hranges, hcover⟩

end IngestDb

end RecoveryDb
end Fog
