import Fog.RecoveryDb.Types
import Fog.Lib.Cursor
import Fog.Lib.Except
import Mathlib

/-!
# User events and their search

The {lit}`user_events` table of the recovery database and
{lit}`SqlRecoveryDb::search_user_events` (fog/sql_recovery_db/src/lib.rs), which
a view server calls on behalf of each polling client with the cursor
{lit}`start_from_user_event_id` the client holds.

The search selects the rows whose id is above the cursor, left-joins the
ingest invocation a new-invocation event announces, computes for a
decommission event the last block ingested under the invocation, decodes each
row into a {lit}`FogUserEvent` (failing with {lit}`UserEventSchemaViolation`
on the first row that lacks a column its type needs), keeps the running
maximum of the ids as the next cursor, and sorts the events by id.  The
source's {lit}`sort_by_key` is a stable sort, whose result is the same as any
other stable sort's; insertion sort is the one used here, as it evaluates.

Ids are {lit}`BIGSERIAL` ({lit}`i64`) values, and the key bytes are byte lists;
a version is stored as {lit}`i32` and read back {lit}`as u32`, which is the
identity on the versions written, so it is a natural number here.

Main results:

- Theorem {lit}`searchUserEvents_eq_ok`: when every row above the cursor
  decodes, the search returns the decoded rows above the cursor in id order
  and advances the cursor to their largest id: it is the high-water-mark read
  of {lit}`Cursor`.
- Theorem {lit}`searchUserEvents_eq_error`: when some row above the cursor
  does not decode, the search fails.
- Theorem {lit}`le_of_searchUserEvents_eq_ok`: the search never moves the
  cursor back.
- Theorem {lit}`decodeRow_searchRow`: a row built by one of the constructors of
  {lit}`NewUserEvent`, whose invocation is in the table, decodes.
-/

namespace Fog
namespace RecoveryDb

/-- The largest {lit}`i64`, {lit}`i64::MAX`. -/
def i64Max : Nat := 2 ^ 63 - 1

/-- The {lit}`user_event_type` enum of the {lit}`user_events` table. -/
inductive UserEventType
  | newIngestInvocation
  | decommissionIngestInvocation
  | missingBlocks
deriving DecidableEq, Repr

/-- The columns of a {lit}`user_events` row other than its id, as
{lit}`models::NewUserEvent` writes them. -/
structure NewUserEvent where
  eventType : UserEventType
  newIngestInvocationId : Option Nat
  decommissionIngestInvocationId : Option Nat
  missingBlocksStart : Option Nat
  missingBlocksEnd : Option Nat
deriving DecidableEq, Repr

namespace NewUserEvent

def newIngestInvocation (ingestInvocationId : Nat) : NewUserEvent where
  eventType := .newIngestInvocation
  newIngestInvocationId := some ingestInvocationId
  decommissionIngestInvocationId := none
  missingBlocksStart := none
  missingBlocksEnd := none

def decommissionIngestInvocation (ingestInvocationId : Nat) : NewUserEvent where
  eventType := .decommissionIngestInvocation
  newIngestInvocationId := none
  decommissionIngestInvocationId := some ingestInvocationId
  missingBlocksStart := none
  missingBlocksEnd := none

/-- The event of a missing block range; the source asserts that the range is
valid, and {lit}`none` is that assertion failing. -/
def missingBlocks (blockRange : BlockRange) : Option NewUserEvent :=
  if blockRange.isValid then
    some
      { eventType := .missingBlocks
        newIngestInvocationId := none
        decommissionIngestInvocationId := none
        missingBlocksStart := some blockRange.startBlock
        missingBlocksEnd := some blockRange.endBlock }
  else none

/-- The rows that the three constructors build, the only ones the database
functions insert. -/
def WellFormed (e : NewUserEvent) : Prop :=
  (∃ ingestInvocationId, e = newIngestInvocation ingestInvocationId) ∨
    (∃ ingestInvocationId, e = decommissionIngestInvocation ingestInvocationId) ∨
    ∃ blockRange, missingBlocks blockRange = some e

end NewUserEvent

/-- A row of {lit}`user_events`: its {lit}`BIGSERIAL` id and its columns. -/
structure UserEvent where
  id : Nat
  event : NewUserEvent
deriving DecidableEq, Repr

/-- A row of {lit}`ingest_invocations`, with the columns the search reads. -/
structure IngestInvocation where
  id : Nat
  egressPublicKey : List UInt8
  rngVersion : Nat
  startBlock : Nat
deriving DecidableEq, Repr

/-- A row of {lit}`ingested_blocks`, with the columns the search reads. -/
structure IngestedBlock where
  ingestInvocationId : Nat
  blockNumber : Nat
deriving DecidableEq, Repr

/-- The rows of the tables the search reads, as one transaction sees them. -/
structure Tables where
  ingestInvocations : List IngestInvocation
  ingestedBlocks : List IngestedBlock
  userEvents : List UserEvent
deriving DecidableEq, Repr

/-- {lit}`KexRngPubkey`. -/
structure KexRngPubkey where
  publicKey : List UInt8
  version : Nat
deriving DecidableEq, Repr

/-- {lit}`RngRecord`. -/
structure RngRecord where
  ingestInvocationId : Nat
  pubkey : KexRngPubkey
  startBlock : Nat
deriving DecidableEq, Repr

/-- {lit}`DecommissionedIngestInvocation`. -/
structure DecommissionedIngestInvocation where
  ingestInvocationId : Nat
  lastIngestedBlock : Nat
deriving DecidableEq, Repr

/-- {lit}`FogUserEvent`, what a client receives. -/
inductive FogUserEvent
  | newRngRecord (rngRecord : RngRecord)
  | decommissionIngestInvocation (decommissioned : DecommissionedIngestInvocation)
  | missingBlocks (blockRange : BlockRange)
deriving DecidableEq, Repr

/-- The error of the search when a row lacks a column its type needs. -/
inductive Error
  | userEventSchemaViolation (userEventId : Nat) (message : String)
deriving DecidableEq, Repr

/-- One row of the query: the columns of its {lit}`.select()` clause. -/
structure SearchRow where
  userEventId : Nat
  userEventType : UserEventType
  rngRecordIngestInvocationId : Option Nat
  rngRecordEgressPublicKey : Option (List UInt8)
  rngRecordRngVersion : Option Nat
  rngRecordStartBlock : Option Nat
  decommissionIngestInvocationId : Option Nat
  decommissionIngestInvocationMaxBlock : Nat
  missingBlocksStart : Option Nat
  missingBlocksEnd : Option Nat
deriving DecidableEq, Repr

namespace Tables

/-- The invocation a new-invocation event announces, by the left join on
{lit}`new_ingest_invocation_id = ingest_invocations.id`. -/
def announced (tables : Tables) (e : UserEvent) : Option IngestInvocation :=
  e.event.newIngestInvocationId.bind fun ingestInvocationId =>
    tables.ingestInvocations.find? (·.id = ingestInvocationId)

/-- The subquery {lit}`COALESCE(MAX(block_number), 0)` over the blocks of the
decommissioned invocation; a comparison with a {lit}`NULL` id holds for no
block. -/
def decommissionMaxBlock (tables : Tables) (e : UserEvent) : Nat :=
  ((tables.ingestedBlocks.filter fun b =>
      e.event.eventType = .decommissionIngestInvocation ∧
        some b.ingestInvocationId = e.event.decommissionIngestInvocationId).map
    (·.blockNumber)).max?.getD 0

/-- The joined row the query returns for a user event. -/
def searchRow (tables : Tables) (e : UserEvent) : SearchRow where
  userEventId := e.id
  userEventType := e.event.eventType
  rngRecordIngestInvocationId := (tables.announced e).map (·.id)
  rngRecordEgressPublicKey := (tables.announced e).map (·.egressPublicKey)
  rngRecordRngVersion := (tables.announced e).map (·.rngVersion)
  rngRecordStartBlock := (tables.announced e).map (·.startBlock)
  decommissionIngestInvocationId := e.event.decommissionIngestInvocationId
  decommissionIngestInvocationMaxBlock := tables.decommissionMaxBlock e
  missingBlocksStart := e.event.missingBlocksStart
  missingBlocksEnd := e.event.missingBlocksEnd

/-- The search row of an event carries the event's id. -/
@[simp]
theorem searchRow_userEventId (tables : Tables) (e : UserEvent) :
    (tables.searchRow e).userEventId = e.id :=
  rfl

/-- Every invocation a row announces is in the table: the foreign key of
{lit}`new_ingest_invocation_id`. -/
def Resolves (tables : Tables) (e : UserEvent) : Prop :=
  ∀ ingestInvocationId, e.event.newIngestInvocationId = some ingestInvocationId →
    ∃ inv ∈ tables.ingestInvocations, inv.id = ingestInvocationId

end Tables

/-- The join of a row whose announced invocation is in the table does not
change when invocations and events are added: committed rows read the same
forever. -/
theorem searchRow_append {tables : Tables} {e : UserEvent} (hres : tables.Resolves e)
    (invs : List IngestInvocation) (events : List UserEvent) :
    ({ tables with
        ingestInvocations := tables.ingestInvocations ++ invs
        userEvents := events } : Tables).searchRow e = tables.searchRow e := by
  have hann : ({ tables with
      ingestInvocations := tables.ingestInvocations ++ invs
      userEvents := events } : Tables).announced e = tables.announced e := by
    unfold Tables.announced
    cases hid : e.event.newIngestInvocationId with
    | none => rfl
    | some iid =>
        obtain ⟨inv, hinv, rfl⟩ := hres iid hid
        obtain ⟨inv', hfind⟩ : ∃ inv', tables.ingestInvocations.find? (·.id = inv.id) = some inv' :=
          Option.isSome_iff_exists.1 (List.find?_isSome.2 ⟨inv, hinv, by simp⟩)
        simp only [Option.bind_some, List.find?_append, hfind, Option.some_or]
  simp only [Tables.searchRow, hann]
  rfl

/-- The decoding of one row, the {lit}`match user_event_type` of the loop. -/
def decodeRow (row : SearchRow) : Except Error FogUserEvent :=
  match row.userEventType with
  | .newIngestInvocation => do
      let ingestInvocationId ← Option.okOr row.rngRecordIngestInvocationId
        (.userEventSchemaViolation row.userEventId "missing rng_record_ingest_invocation_id")
      let publicKey ← Option.okOr row.rngRecordEgressPublicKey
        (.userEventSchemaViolation row.userEventId "missing rng_record_egress_public_key")
      let version ← Option.okOr row.rngRecordRngVersion
        (.userEventSchemaViolation row.userEventId "missing rng_record_rng_version")
      let startBlock ← Option.okOr row.rngRecordStartBlock
        (.userEventSchemaViolation row.userEventId "missing rng_record_start_block")
      return .newRngRecord ⟨ingestInvocationId, ⟨publicKey, version⟩, startBlock⟩
  | .decommissionIngestInvocation => do
      let ingestInvocationId ← Option.okOr row.decommissionIngestInvocationId
        (.userEventSchemaViolation row.userEventId "missing decommission_ingest_invocation_id")
      return .decommissionIngestInvocation
        ⟨ingestInvocationId, row.decommissionIngestInvocationMaxBlock⟩
  | .missingBlocks => do
      let startBlock ← Option.okOr row.missingBlocksStart
        (.userEventSchemaViolation row.userEventId "missing missing_blocks_start")
      let endBlock ← Option.okOr row.missingBlocksEnd
        (.userEventSchemaViolation row.userEventId "missing missing_blocks_end")
      return .missingBlocks ⟨startBlock, endBlock⟩

/-- The loop over the query's rows: update the running maximum, then decode the
row and push it with its id; the first row that does not decode ends the
search with its error. -/
def collectEvents (maxUserEventId : Nat) :
    List SearchRow → Except Error (List (Nat × FogUserEvent) × Nat)
  | [] => .ok ([], maxUserEventId)
  | row :: rows => do
      let maxUserEventId := max maxUserEventId row.userEventId
      let event ← decodeRow row
      let (events, maxUserEventId) ← collectEvents maxUserEventId rows
      return ((row.userEventId, event) :: events, maxUserEventId)

/-- {lit}`search_user_events`: the events above the cursor, sorted by id, and
the next cursor. -/
def searchUserEvents (tables : Tables) (startFromUserEventId : Nat) :
    Except Error (List FogUserEvent × Nat) :=
  if startFromUserEventId = i64Max then .ok ([], i64Max)
  else do
    let data := (tables.userEvents.filter fun e => startFromUserEventId < e.id).map
      tables.searchRow
    let (events, maxUserEventId) ← collectEvents startFromUserEventId data
    return ((events.insertionSort fun a b => a.1 ≤ b.1).map Prod.snd, maxUserEventId)

/-! ## What the search returns -/

/-- The loop over rows that all decode pushes each with its id and ends with the
running maximum of the ids. -/
theorem collectEvents_map_searchRow (tables : Tables) (ev : UserEvent → FogUserEvent) :
    ∀ (m : Nat) (l : List UserEvent), (∀ e ∈ l, decodeRow (tables.searchRow e) = .ok (ev e)) →
      collectEvents m (l.map tables.searchRow) =
        .ok (l.map fun e => (e.id, ev e), l.foldl (fun m e => max m e.id) m)
  | _, [], _ => rfl
  | m, e :: l, hev => by
      have ih := collectEvents_map_searchRow tables ev (max m e.id) l
        fun e' he' => hev e' (List.mem_cons_of_mem e he')
      simp only [List.map_cons, collectEvents, hev e List.mem_cons_self, Tables.searchRow_userEventId,
        ih, List.foldl_cons]
      rfl

/-- A row that does not decode makes the loop fail. -/
theorem collectEvents_eq_error {rows : List SearchRow} {row : SearchRow} (hrow : row ∈ rows)
    {err : Error} (herr : decodeRow row = .error err) (m : Nat) :
    ∃ err', collectEvents m rows = .error err' := by
  induction rows generalizing m with
  | nil => simp at hrow
  | cons r rows ih =>
      simp only [collectEvents]
      cases hdec : decodeRow r with
      | error err' => exact ⟨err', rfl⟩
      | ok v =>
          rcases List.mem_cons.1 hrow with rfl | hrow
          · rw [herr] at hdec
            cases hdec
          · obtain ⟨err', h⟩ := ih hrow (max m r.userEventId)
            exact ⟨err', by simp only [h]; rfl⟩

/-- When every row above the cursor decodes, the search is the high-water-mark
read: the decoded rows above the cursor in id order, and the largest id. -/
theorem searchUserEvents_eq_ok {tables : Tables} {startFromUserEventId : Nat}
    (hids : ∀ e ∈ tables.userEvents, e.id ≤ i64Max) (ev : UserEvent → FogUserEvent)
    (hev : ∀ e ∈ tables.userEvents, startFromUserEventId < e.id →
      decodeRow (tables.searchRow e) = .ok (ev e)) :
    searchUserEvents tables startFromUserEventId =
      .ok ((Cursor.above UserEvent.id tables.userEvents startFromUserEventId).map ev,
        Cursor.advance UserEvent.id tables.userEvents startFromUserEventId) := by
  unfold searchUserEvents
  split
  · rename_i hmax
    subst hmax
    rw [Cursor.above_eq_nil hids, Cursor.advance_eq_self hids, List.map_nil]
  · have hloop := collectEvents_map_searchRow tables ev startFromUserEventId
      (tables.userEvents.filter fun e => startFromUserEventId < e.id) fun e he =>
        hev e (List.mem_filter.1 he).1 (of_decide_eq_true (List.mem_filter.1 he).2)
    have hsort : ((((tables.userEvents.filter fun e => startFromUserEventId < e.id).map
        fun e => (e.id, ev e)).insertionSort fun a b => a.1 ≤ b.1).map Prod.snd) =
        (Cursor.above UserEvent.id tables.userEvents startFromUserEventId).map ev := by
      rw [Cursor.above, ← List.map_insertionSort (fun a b => a.id ≤ b.id) (fun a b => a.1 ≤ b.1)
        (fun e => (e.id, ev e)) _ (fun _ _ _ _ => Iff.rfl), List.map_map]
      rfl
    simp only [hloop, bind, Except.bind, pure, Except.pure, hsort]
    rfl

/-- When every row above the cursor decodes, the search succeeds with the rows
above the cursor, in id order, each decoded. -/
theorem searchUserEvents_of_decodes {tables : Tables} {startFromUserEventId : Nat}
    (hids : ∀ e ∈ tables.userEvents, e.id ≤ i64Max)
    (hdec : ∀ e ∈ tables.userEvents, startFromUserEventId < e.id →
      ∃ v, decodeRow (tables.searchRow e) = .ok v) :
    ∃ events, searchUserEvents tables startFromUserEventId =
        .ok (events, Cursor.advance UserEvent.id tables.userEvents startFromUserEventId) ∧
      List.Forall₂ (fun e v => decodeRow (tables.searchRow e) = .ok v)
        (Cursor.above UserEvent.id tables.userEvents startFromUserEventId) events := by
  let ev : UserEvent → FogUserEvent := fun e =>
    match decodeRow (tables.searchRow e) with
    | .ok v => v
    | .error _ => .missingBlocks ⟨0, 0⟩
  have hev : ∀ e ∈ tables.userEvents, startFromUserEventId < e.id →
      decodeRow (tables.searchRow e) = .ok (ev e) := by
    intro e he hlt
    obtain ⟨v, hv⟩ := hdec e he hlt
    simp only [ev, hv]
  refine ⟨_, searchUserEvents_eq_ok hids ev hev, ?_⟩
  rw [List.forall₂_map_right_iff, List.forall₂_same]
  intro e he
  exact hev e (Cursor.mem_above.1 he).1 (Cursor.mem_above.1 he).2

/-- The loop's running maximum never falls below its start. -/
theorem le_of_collectEvents_eq_ok : ∀ {m m' : Nat} {rows : List SearchRow}
    {events : List (Nat × FogUserEvent)}, collectEvents m rows = .ok (events, m') → m ≤ m'
  | _, _, [], _, h => by
      cases h
      exact le_rfl
  | m, m', row :: rows, events, h => by
      simp only [collectEvents] at h
      cases hdec : decodeRow row with
      | error err =>
          rw [hdec] at h
          cases h
      | ok v =>
          rw [hdec] at h
          cases hrest : collectEvents (max m row.userEventId) rows with
          | error err =>
              rw [hrest] at h
              cases h
          | ok r =>
              rw [hrest] at h
              cases h
              exact (le_max_left m row.userEventId).trans (le_of_collectEvents_eq_ok hrest)

/-- The search never moves the cursor back. -/
theorem le_of_searchUserEvents_eq_ok {tables : Tables} {startFromUserEventId next : Nat}
    {events : List FogUserEvent}
    (h : searchUserEvents tables startFromUserEventId = .ok (events, next)) :
    startFromUserEventId ≤ next := by
  unfold searchUserEvents at h
  split at h
  · cases h
    omega
  · dsimp only at h
    cases hloop : collectEvents startFromUserEventId
        ((tables.userEvents.filter fun e => startFromUserEventId < e.id).map tables.searchRow) with
    | error err =>
        rw [hloop] at h
        cases h
    | ok r =>
        rw [hloop] at h
        cases h
        exact le_of_collectEvents_eq_ok hloop

/-- When some row above the cursor does not decode, the search fails. -/
theorem searchUserEvents_eq_error {tables : Tables} {startFromUserEventId : Nat}
    (hne : startFromUserEventId ≠ i64Max) {e : UserEvent} (he : e ∈ tables.userEvents)
    (habove : startFromUserEventId < e.id) {err : Error}
    (herr : decodeRow (tables.searchRow e) = .error err) :
    ∃ err', searchUserEvents tables startFromUserEventId = .error err' := by
  have hrow : tables.searchRow e ∈
      (tables.userEvents.filter fun e => startFromUserEventId < e.id).map tables.searchRow :=
    List.mem_map_of_mem (List.mem_filter.2 ⟨he, decide_eq_true habove⟩)
  obtain ⟨err', hloop⟩ := collectEvents_eq_error hrow herr startFromUserEventId
  refine ⟨err', ?_⟩
  simp only [searchUserEvents, hne, if_false, hloop]
  rfl

/-- A row built by a constructor of {lit}`NewUserEvent`, whose announced
invocation is in the table, decodes. -/
theorem decodeRow_searchRow {tables : Tables} {e : UserEvent} (hwf : e.event.WellFormed)
    (hres : tables.Resolves e) : ∃ v, decodeRow (tables.searchRow e) = .ok v := by
  obtain ⟨id, event⟩ := e
  rcases hwf with ⟨iid, rfl⟩ | ⟨iid, rfl⟩ | ⟨blockRange, hbuilt⟩
  · obtain ⟨inv, hinv, rfl⟩ := hres iid rfl
    obtain ⟨inv', hfind⟩ : ∃ inv', tables.ingestInvocations.find? (·.id = inv.id) = some inv' :=
      Option.isSome_iff_exists.1 (List.find?_isSome.2 ⟨inv, hinv, by simp⟩)
    simp only [decodeRow, Tables.searchRow, Tables.announced, NewUserEvent.newIngestInvocation,
      Option.bind_some, hfind, Option.map_some, Option.okOr]
    exact ⟨_, rfl⟩
  · simp only [decodeRow, Tables.searchRow, NewUserEvent.decommissionIngestInvocation, Option.okOr]
    exact ⟨_, rfl⟩
  · unfold NewUserEvent.missingBlocks at hbuilt
    split at hbuilt
    · cases hbuilt
      simp only [decodeRow, Tables.searchRow, Option.okOr]
      exact ⟨_, rfl⟩
    · cases hbuilt

end RecoveryDb
end Fog
