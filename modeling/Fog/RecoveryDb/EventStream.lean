import Fog.RecoveryDb.UserEvents
import Fog.Lib.Run

/-!
# Polling user events while transactions commit

Ingest servers and operators write user events in read-write transactions:
{lit}`new_ingest_invocation` inserts an ingest invocation and the event that
announces it (after the decommission event of the invocation it replaces, if
any), {lit}`decommission_ingest_invocation` inserts a decommission event, and
{lit}`report_lost_ingress_key` may insert a missing-blocks event.  Each insert
draws its id from the {lit}`BIGSERIAL` sequence of its table when it runs, and
the row becomes visible to others only when its transaction commits.  A client
polls with the cursor the previous search returned, starting from 0
({lit}`FogViewConnection::poll`, which stores
{lit}`next_start_from_user_event_id`).

The model is the database at the level of single statements, so that any
interleaving of the transactions is a run: {lit}`begin`, each insert, and
{lit}`commit` or {lit}`rollback` of a transaction are separate steps, and a
poll is a step of its own.  The updates these functions make besides their
inserts ({lit}`decommissioned`, {lit}`last_active_at`, {lit}`lost`) are not
read by the search and are left out.  A statement that fails (an exhausted
sequence, a foreign key that names no invocation the transaction sees, the
assertion on a missing-blocks range) is a step that cannot be taken; its
transaction can only roll back.

The client's state holds, besides its cursor and the events it received, the
rows whose events the searches returned; this ghost field is what the
invariants speak about, and each search returns exactly those rows decoded.

Main results:

- Theorem {lit}`World.inv_of_runSteps`: every run keeps ids unique and below
  the sequence, every row decodable, and what the client holds a set of
  committed rows in strictly increasing id order up to its cursor, whose
  decodings are the events it received.
- Theorem {lit}`World.inOrderInv_of_runSteps`: in a run whose transactions
  commit in id order, the client misses no committed row up to its cursor.
- Theorem {lit}`World.not_mem_receivedRows_of_runSteps`: a committed row at or
  below the cursor that the client does not hold is never delivered.
- Theorem {lit}`searchUserEvents_delivers_committed_events`: the client never
  receives an event twice or out of order, and receives every committed event
  when transactions commit in id order.
- Theorem {lit}`searchUserEvents_misses_late_commit`: a transaction that commits
  after a later-numbered one, with a poll in between, is never delivered.
-/

namespace Fog
namespace RecoveryDb

open Run

/-- {lit}`nextval` of a {lit}`BIGSERIAL` sequence: the value after the last one
handed out; the sequence ends at {lit}`i64::MAX`. -/
def nextval (lastValue : Nat) : Option Nat :=
  if lastValue < i64Max then some (lastValue + 1) else none

/-- User events in id order, the order a search returns them in. -/
def inIdOrder (rows : List UserEvent) : List UserEvent :=
  rows.insertionSort fun a b => a.id ≤ b.id

/-- The recovery database under concurrent transactions: the committed tables,
the two sequences, the open transactions and the rows each has inserted and
not yet committed. -/
structure Db where
  committed : Tables
  lastIngestInvocationId : Nat
  lastUserEventId : Nat
  openTransactions : List Nat
  pendingIngestInvocations : List (Nat × IngestInvocation)
  pendingUserEvents : List (Nat × UserEvent)
deriving DecidableEq, Repr

namespace Db

/-- A database with no invocation and no event, over given ingested blocks. -/
def new (ingestedBlocks : List IngestedBlock) : Db :=
  ⟨⟨[], ingestedBlocks, []⟩, 0, 0, [], [], []⟩

/-- The invocations a transaction sees: the committed ones and its own. -/
def visibleIngestInvocations (db : Db) (txn : Nat) : List IngestInvocation :=
  db.committed.ingestInvocations ++ (db.pendingIngestInvocations.filter (·.1 = txn)).map Prod.snd

/-- The user events of every transaction, committed or not. -/
def allUserEvents (db : Db) : List UserEvent :=
  db.committed.userEvents ++ db.pendingUserEvents.map Prod.snd

def begin (db : Db) (txn : Nat) : Option Db :=
  if txn ∈ db.openTransactions then none
  else some { db with openTransactions := txn :: db.openTransactions }

/-- {lit}`insert_into(ingest_invocations)` in a transaction. -/
def insertIngestInvocation (db : Db) (txn : Nat) (egressPublicKey : List UInt8)
    (rngVersion startBlock : Nat) : Option Db :=
  if txn ∉ db.openTransactions then none
  else (nextval db.lastIngestInvocationId).map fun id =>
    { db with
      lastIngestInvocationId := id
      pendingIngestInvocations :=
        db.pendingIngestInvocations ++ [(txn, ⟨id, egressPublicKey, rngVersion, startBlock⟩)] }

/-- The foreign keys of {lit}`user_events`: an invocation id in a row names an
invocation the inserting transaction sees. -/
def referencesVisible (db : Db) (txn : Nat) (e : NewUserEvent) : Bool :=
  (e.newIngestInvocationId.all fun iid => (db.visibleIngestInvocations txn).any (·.id = iid)) &&
    e.decommissionIngestInvocationId.all fun iid =>
      (db.visibleIngestInvocations txn).any (·.id = iid)

/-- {lit}`insert_into(user_events)` in a transaction. -/
def insertUserEvent (db : Db) (txn : Nat) (e : NewUserEvent) : Option Db :=
  if txn ∉ db.openTransactions then none
  else if !db.referencesVisible txn e then none
  else (nextval db.lastUserEventId).map fun id =>
    { db with
      lastUserEventId := id
      pendingUserEvents := db.pendingUserEvents ++ [(txn, ⟨id, e⟩)] }

/-- The commit of a transaction makes its rows visible. -/
def commit (db : Db) (txn : Nat) : Option Db :=
  if txn ∉ db.openTransactions then none
  else some
    { db with
      committed :=
        { db.committed with
          ingestInvocations := db.visibleIngestInvocations txn
          userEvents :=
            db.committed.userEvents ++ (db.pendingUserEvents.filter (·.1 = txn)).map Prod.snd }
      openTransactions := db.openTransactions.erase txn
      pendingIngestInvocations := db.pendingIngestInvocations.filter (·.1 ≠ txn)
      pendingUserEvents := db.pendingUserEvents.filter (·.1 ≠ txn) }

/-- The rollback of a transaction drops its rows; the ids they drew stay used. -/
def rollback (db : Db) (txn : Nat) : Option Db :=
  if txn ∉ db.openTransactions then none
  else some
    { db with
      openTransactions := db.openTransactions.erase txn
      pendingIngestInvocations := db.pendingIngestInvocations.filter (·.1 ≠ txn)
      pendingUserEvents := db.pendingUserEvents.filter (·.1 ≠ txn) }

/-- Whether committing the transaction makes ids visible in order: each event
it inserted has a smaller id than every event another transaction holds. -/
def commitsInOrder (db : Db) (txn : Nat) : Bool :=
  db.pendingUserEvents.all fun p =>
    p.1 ≠ txn || db.pendingUserEvents.all fun q => q.1 = txn || decide (p.2.id < q.2.id)

/-! ### What each statement does -/

variable {db db' : Db} {txn : Nat}

/-- A transaction that begins is added to the open ones. -/
theorem begin_eq_some (h : db.begin txn = some db') :
    db' = { db with openTransactions := txn :: db.openTransactions } := by
  unfold begin at h
  split at h
  · cases h
  · exact (Option.some.inj h).symm

/-- The sequence gives the next value while it has not run out. -/
theorem nextval_eq_some {lastValue id : Nat} (h : nextval lastValue = some id) :
    lastValue < i64Max ∧ id = lastValue + 1 := by
  unfold nextval at h
  split at h
  · exact ⟨‹_›, (Option.some.inj h).symm⟩
  · cases h

/-- An invocation inserted takes the next id and is pending in its transaction.
-/
theorem insertIngestInvocation_eq_some {egressPublicKey : List UInt8} {rngVersion startBlock : Nat}
    (h : db.insertIngestInvocation txn egressPublicKey rngVersion startBlock = some db') :
    ∃ id, db' = { db with
      lastIngestInvocationId := id
      pendingIngestInvocations :=
        db.pendingIngestInvocations ++ [(txn, ⟨id, egressPublicKey, rngVersion, startBlock⟩)] } := by
  unfold insertIngestInvocation at h
  split at h
  · cases h
  · obtain ⟨id, -, rfl⟩ := Option.map_eq_some_iff.1 h
    exact ⟨id, rfl⟩

/-- A user event inserted takes the next id and is pending in its transaction.
-/
theorem insertUserEvent_eq_some {e : NewUserEvent} (h : db.insertUserEvent txn e = some db') :
    db.referencesVisible txn e = true ∧ db.lastUserEventId < i64Max ∧
      db' = { db with
        lastUserEventId := db.lastUserEventId + 1
        pendingUserEvents := db.pendingUserEvents ++ [(txn, ⟨db.lastUserEventId + 1, e⟩)] } := by
  unfold insertUserEvent at h
  split at h
  · cases h
  · split at h
    · cases h
    · rename_i href
      obtain ⟨id, hid, rfl⟩ := Option.map_eq_some_iff.1 h
      obtain ⟨hlt, rfl⟩ := nextval_eq_some hid
      exact ⟨by simpa using href, hlt, rfl⟩

/-- A commit moves the transaction's rows into the committed tables. -/
theorem commit_eq_some (h : db.commit txn = some db') :
    db' = { db with
      committed :=
        { db.committed with
          ingestInvocations := db.visibleIngestInvocations txn
          userEvents :=
            db.committed.userEvents ++ (db.pendingUserEvents.filter (·.1 = txn)).map Prod.snd }
      openTransactions := db.openTransactions.erase txn
      pendingIngestInvocations := db.pendingIngestInvocations.filter (·.1 ≠ txn)
      pendingUserEvents := db.pendingUserEvents.filter (·.1 ≠ txn) } := by
  unfold commit at h
  split at h
  · cases h
  · exact (Option.some.inj h).symm

/-- A rollback drops the transaction's rows. -/
theorem rollback_eq_some (h : db.rollback txn = some db') :
    db' = { db with
      openTransactions := db.openTransactions.erase txn
      pendingIngestInvocations := db.pendingIngestInvocations.filter (·.1 ≠ txn)
      pendingUserEvents := db.pendingUserEvents.filter (·.1 ≠ txn) } := by
  unfold rollback at h
  split at h
  · cases h
  · exact (Option.some.inj h).symm

/-- A transaction's rows and the others' together are all the rows. -/
theorem filter_eq_append_filter_ne_perm {β : Type} (l : List (Nat × β)) (txn : Nat) :
    List.Perm (l.filter (·.1 = txn) ++ l.filter (·.1 ≠ txn)) l := by
  simpa only [decide_not] using List.filter_append_perm (fun p : Nat × β => decide (p.1 = txn)) l

/-- What a transaction other than the one ending sees is kept. -/
theorem mem_visibleIngestInvocations_of_ne {inv : IngestInvocation} {txn' : Nat}
    (hne : txn' ≠ txn) (h : inv ∈ db.visibleIngestInvocations txn')
    (committed' : List IngestInvocation) (hcommitted : db.committed.ingestInvocations ⊆ committed') :
    inv ∈ committed' ++ ((db.pendingIngestInvocations.filter (·.1 ≠ txn)).filter (·.1 = txn')).map
      Prod.snd := by
  simp only [visibleIngestInvocations, List.mem_append, List.mem_map, List.mem_filter,
    decide_eq_true_eq] at h ⊢
  rcases h with h | ⟨p, ⟨hp, rfl⟩, rfl⟩
  · exact Or.inl (hcommitted h)
  · exact Or.inr ⟨p, ⟨⟨hp, fun h => hne (h ▸ rfl)⟩, rfl⟩, rfl⟩

/-! ### The invariant of the database -/

/-- Ids are distinct and below the sequence, the sequence has not run out, and
every row is one the constructors build whose invocation is visible: committed
rows to everyone, uncommitted ones to their transaction. -/
structure Inv (db : Db) : Prop where
  nodup : (db.allUserEvents.map UserEvent.id).Nodup
  le_last : ∀ e ∈ db.allUserEvents, e.id ≤ db.lastUserEventId
  last_le : db.lastUserEventId ≤ i64Max
  committed_wellFormed : ∀ e ∈ db.committed.userEvents, e.event.WellFormed ∧ db.committed.Resolves e
  pending_wellFormed : ∀ p ∈ db.pendingUserEvents, p.2.event.WellFormed ∧
    ∀ iid, p.2.event.newIngestInvocationId = some iid →
      ∃ inv ∈ db.visibleIngestInvocations p.1, inv.id = iid

/-- The fresh database satisfies the invariant. -/
theorem inv_new (ingestedBlocks : List IngestedBlock) : (new ingestedBlocks).Inv where
  nodup := List.nodup_nil
  le_last _ h := absurd h List.not_mem_nil
  last_le := Nat.zero_le _
  committed_wellFormed _ h := absurd h List.not_mem_nil
  pending_wellFormed _ h := absurd h List.not_mem_nil

/-- Committed ids are distinct. -/
theorem Inv.committed_nodup (h : db.Inv) : (db.committed.userEvents.map UserEvent.id).Nodup :=
  h.nodup.sublist ((List.sublist_append_left _ _).map UserEvent.id)

/-- Committed ids lie within the sequence's range. -/
theorem Inv.committed_le (h : db.Inv) : ∀ e ∈ db.committed.userEvents, e.id ≤ i64Max :=
  fun e he => (h.le_last e (List.mem_append_left _ he)).trans h.last_le

/-- Every committed row decodes. -/
theorem Inv.committed_decodes (h : db.Inv) :
    ∀ e ∈ db.committed.userEvents, ∃ v, decodeRow (db.committed.searchRow e) = .ok v :=
  fun e he => decodeRow_searchRow (h.committed_wellFormed e he).1 (h.committed_wellFormed e he).2

/-- Beginning a transaction keeps the invariant. -/
theorem Inv.begin (h : db.Inv) (hstep : db.begin txn = some db') : db'.Inv := by
  rw [begin_eq_some hstep]
  exact ⟨h.nodup, h.le_last, h.last_le, h.committed_wellFormed, h.pending_wellFormed⟩

/-- Inserting an invocation keeps the invariant. -/
theorem Inv.insertIngestInvocation (h : db.Inv) {egressPublicKey : List UInt8}
    {rngVersion startBlock : Nat}
    (hstep : db.insertIngestInvocation txn egressPublicKey rngVersion startBlock = some db') :
    db'.Inv := by
  obtain ⟨id, rfl⟩ := insertIngestInvocation_eq_some hstep
  refine ⟨h.nodup, h.le_last, h.last_le, h.committed_wellFormed, fun p hp => ?_⟩
  refine ⟨(h.pending_wellFormed p hp).1, fun iid hiid => ?_⟩
  obtain ⟨inv, hinv, rfl⟩ := (h.pending_wellFormed p hp).2 iid hiid
  refine ⟨inv, ?_, rfl⟩
  simp only [visibleIngestInvocations, List.filter_append, List.map_append, List.mem_append] at hinv ⊢
  rcases hinv with hinv | hinv
  · exact Or.inl hinv
  · exact Or.inr (Or.inl hinv)

/-- Inserting a well-formed user event keeps the invariant. -/
theorem Inv.insertUserEvent (h : db.Inv) {e : NewUserEvent} (hwf : e.WellFormed)
    (hstep : db.insertUserEvent txn e = some db') : db'.Inv := by
  obtain ⟨href, hlt, rfl⟩ := insertUserEvent_eq_some hstep
  have hall : allUserEvents { db with
      lastUserEventId := db.lastUserEventId + 1
      pendingUserEvents := db.pendingUserEvents ++ [(txn, ⟨db.lastUserEventId + 1, e⟩)] } =
      db.allUserEvents ++ [⟨db.lastUserEventId + 1, e⟩] := by
    simp [allUserEvents]
  refine ⟨?_, ?_, by simp only; omega, h.committed_wellFormed, ?_⟩
  · rw [hall, List.map_append, List.nodup_append]
    refine ⟨h.nodup, List.nodup_singleton _, ?_⟩
    intro a ha b hb
    obtain ⟨e', he', rfl⟩ := List.mem_map.1 ha
    simp only [List.map_cons, List.map_nil, List.mem_singleton] at hb
    have := h.le_last e' he'
    omega
  · rw [hall]
    intro e' he'
    rcases List.mem_append.1 he' with he' | he'
    · exact (h.le_last e' he').trans (Nat.le_succ _)
    · rw [List.mem_singleton] at he'
      rw [he']
  · intro p hp
    rcases List.mem_append.1 hp with hp | hp
    · exact h.pending_wellFormed p hp
    · rw [List.mem_singleton] at hp
      subst hp
      refine ⟨hwf, fun iid hiid => ?_⟩
      simp only [referencesVisible, Bool.and_eq_true, Option.all_eq_true] at href
      obtain ⟨inv, hinv, hid⟩ := List.any_eq_true.1 (href.1 iid hiid)
      exact ⟨inv, hinv, of_decide_eq_true hid⟩

/-- A commit keeps the invariant. -/
theorem Inv.commit (h : db.Inv) (hstep : db.commit txn = some db') : db'.Inv := by
  have hperm : db'.allUserEvents.Perm db.allUserEvents := by
    rw [commit_eq_some hstep]
    simp only [allUserEvents, List.append_assoc, ← List.map_append]
    exact List.Perm.append_left _ ((filter_eq_append_filter_ne_perm _ txn).map _)
  obtain rfl := commit_eq_some hstep
  have hsub : db.committed.ingestInvocations ⊆ db.visibleIngestInvocations txn :=
    List.subset_append_left _ _
  refine ⟨(hperm.map _).nodup_iff.2 h.nodup, fun e he => h.le_last e (hperm.subset he),
    h.last_le, ?_, ?_⟩
  · intro e he
    simp only [List.mem_append, List.mem_map, List.mem_filter, decide_eq_true_eq] at he
    rcases he with he | ⟨p, ⟨hp, hpt⟩, rfl⟩
    · refine ⟨(h.committed_wellFormed e he).1, fun iid hiid => ?_⟩
      obtain ⟨inv, hinv, hid⟩ := (h.committed_wellFormed e he).2 iid hiid
      exact ⟨inv, hsub hinv, hid⟩
    · refine ⟨(h.pending_wellFormed p hp).1, fun iid hiid => ?_⟩
      rw [← hpt]
      exact (h.pending_wellFormed p hp).2 iid hiid
  · intro p hp
    obtain ⟨hp, hpt⟩ := List.mem_filter.1 hp
    refine ⟨(h.pending_wellFormed p hp).1, fun iid hiid => ?_⟩
    obtain ⟨inv, hinv, hid⟩ := (h.pending_wellFormed p hp).2 iid hiid
    exact ⟨inv, mem_visibleIngestInvocations_of_ne (of_decide_eq_true hpt) hinv _ hsub, hid⟩

/-- A rollback keeps the invariant. -/
theorem Inv.rollback (h : db.Inv) (hstep : db.rollback txn = some db') : db'.Inv := by
  have hsub : db'.allUserEvents.Sublist db.allUserEvents := by
    rw [rollback_eq_some hstep]
    exact List.Sublist.append_left (List.filter_sublist.map _) _
  obtain rfl := rollback_eq_some hstep
  refine ⟨h.nodup.sublist (hsub.map _), fun e he => h.le_last e (hsub.subset he), h.last_le,
    h.committed_wellFormed, ?_⟩
  intro p hp
  obtain ⟨hp, hpt⟩ := List.mem_filter.1 hp
  refine ⟨(h.pending_wellFormed p hp).1, fun iid hiid => ?_⟩
  obtain ⟨inv, hinv, hid⟩ := (h.pending_wellFormed p hp).2 iid hiid
  exact ⟨inv, mem_visibleIngestInvocations_of_ne (of_decide_eq_true hpt) hinv _
    (List.Subset.refl _), hid⟩

end Db

/-- The polling client: its cursor, the events it received, and (ghost) the
rows whose events the searches returned. -/
structure Client where
  nextStartFromUserEventId : Nat
  events : List FogUserEvent
  receivedRows : List UserEvent
deriving DecidableEq, Repr

namespace Client

def new : Client := ⟨0, [], []⟩

/-- One poll: a search from the cursor; on success the events are kept and the
cursor is set to the one returned, on an error nothing changes. -/
def poll (client : Client) (tables : Tables) : Client :=
  match searchUserEvents tables client.nextStartFromUserEventId with
  | .ok (events, next) =>
      { nextStartFromUserEventId := next
        events := client.events ++ events
        receivedRows :=
          client.receivedRows ++
            Cursor.above UserEvent.id tables.userEvents client.nextStartFromUserEventId }
  | .error _ => client

/-- A poll of tables whose rows above the cursor all decode receives exactly
those rows, decoded, and moves the cursor to the largest id. -/
theorem poll_of_decodes (client : Client) {tables : Tables}
    (hids : ∀ e ∈ tables.userEvents, e.id ≤ i64Max)
    (hdec : ∀ e ∈ tables.userEvents, client.nextStartFromUserEventId < e.id →
      ∃ v, decodeRow (tables.searchRow e) = .ok v) :
    ∃ events, List.Forall₂ (fun e v => decodeRow (tables.searchRow e) = .ok v)
        (Cursor.above UserEvent.id tables.userEvents client.nextStartFromUserEventId) events ∧
      client.poll tables =
        { nextStartFromUserEventId :=
            Cursor.advance UserEvent.id tables.userEvents client.nextStartFromUserEventId
          events := client.events ++ events
          receivedRows := client.receivedRows ++
            Cursor.above UserEvent.id tables.userEvents client.nextStartFromUserEventId } := by
  obtain ⟨events, hsearch, hdecoded⟩ := searchUserEvents_of_decodes hids hdec
  exact ⟨events, hdecoded, by simp only [poll, hsearch]⟩

/-- Whatever the search does, a poll never moves the cursor back and only adds
rows above the cursor it started from. -/
theorem poll_extends (client : Client) (tables : Tables) :
    client.nextStartFromUserEventId ≤ (client.poll tables).nextStartFromUserEventId ∧
      ∃ rows, (client.poll tables).receivedRows = client.receivedRows ++ rows ∧
        ∀ r ∈ rows, client.nextStartFromUserEventId < r.id := by
  unfold poll
  split
  · rename_i events next hsearch
    exact ⟨le_of_searchUserEvents_eq_ok hsearch, _, rfl, fun r hr => (Cursor.mem_above.1 hr).2⟩
  · exact ⟨le_rfl, [], (List.append_nil _).symm, fun r hr => absurd hr List.not_mem_nil⟩

end Client

/-- The steps of a run: one statement of a transaction, or a poll. -/
inductive Action
  | begin (txn : Nat)
  | insertIngestInvocation (txn : Nat) (egressPublicKey : List UInt8) (rngVersion startBlock : Nat)
  /-- the event {lit}`new_ingest_invocation` writes -/
  | insertNewIngestInvocationEvent (txn ingestInvocationId : Nat)
  /-- the event {lit}`decommission_ingest_invocation_impl` writes -/
  | insertDecommissionIngestInvocationEvent (txn ingestInvocationId : Nat)
  /-- the event {lit}`report_lost_ingress_key` writes -/
  | insertMissingBlocksEvent (txn : Nat) (blockRange : BlockRange)
  | commit (txn : Nat)
  | rollback (txn : Nat)
  | poll
deriving DecidableEq, Repr

/-- The database and one polling client. -/
structure World where
  db : Db
  client : Client
deriving DecidableEq, Repr

namespace World

def new (ingestedBlocks : List IngestedBlock) : World :=
  ⟨Db.new ingestedBlocks, Client.new⟩

def step (sys : World) : Action → Option World
  | .begin txn => (sys.db.begin txn).map fun db => { sys with db }
  | .insertIngestInvocation txn egressPublicKey rngVersion startBlock =>
      (sys.db.insertIngestInvocation txn egressPublicKey rngVersion startBlock).map fun db =>
        { sys with db }
  | .insertNewIngestInvocationEvent txn ingestInvocationId =>
      (sys.db.insertUserEvent txn (.newIngestInvocation ingestInvocationId)).map fun db =>
        { sys with db }
  | .insertDecommissionIngestInvocationEvent txn ingestInvocationId =>
      (sys.db.insertUserEvent txn (.decommissionIngestInvocation ingestInvocationId)).map fun db =>
        { sys with db }
  | .insertMissingBlocksEvent txn blockRange =>
      (NewUserEvent.missingBlocks blockRange).bind fun e =>
        (sys.db.insertUserEvent txn e).map fun db => { sys with db }
  | .commit txn => (sys.db.commit txn).map fun db => { sys with db }
  | .rollback txn => (sys.db.rollback txn).map fun db => { sys with db }
  | .poll => some { sys with client := sys.client.poll sys.db.committed }

/-- The runs in which every transaction commits in id order. -/
def stepInOrder (sys : World) (a : Action) : Option World :=
  match a with
  | .commit txn => if sys.db.commitsInOrder txn then sys.step a else none
  | _ => sys.step a

variable {sys sys' : World} {a : Action} {db' : Db} {txn : Nat}

/-- A step that commits in id order is a step, and a commit in it commits in id
order. -/
theorem stepInOrder_eq_some (h : sys.stepInOrder a = some sys') :
    sys.step a = some sys' ∧ ∀ txn, a = .commit txn → sys.db.commitsInOrder txn = true := by
  cases a with
  | commit txn =>
      simp only [stepInOrder] at h
      split at h
      · exact ⟨h, fun _ htxn => by cases htxn; assumption⟩
      · cases h
  | _ => exact ⟨h, fun _ htxn => by cases htxn⟩

/-! ### The invariant of every run -/

/-- The database invariant, and what the client holds: committed rows in
strictly increasing id order up to its cursor, whose decodings are the events
it received. -/
structure Inv (sys : World) : Prop where
  db : sys.db.Inv
  delivered : Cursor.Delivered UserEvent.id sys.db.committed.userEvents
    sys.client.nextStartFromUserEventId sys.client.receivedRows
  events : List.Forall₂ (fun e v => decodeRow (sys.db.committed.searchRow e) = .ok v)
    sys.client.receivedRows sys.client.events

/-- The fresh system, a fresh database and a client that has read nothing,
satisfies the invariant. -/
theorem inv_new (ingestedBlocks : List IngestedBlock) : (new ingestedBlocks).Inv :=
  ⟨Db.inv_new ingestedBlocks, Cursor.Delivered.nil _ _, List.Forall₂.nil⟩

/-- A statement that leaves the committed tables alone keeps the invariant. -/
theorem Inv.of_committed_eq (h : sys.Inv) (hdb : db'.Inv) (hc : db'.committed = sys.db.committed) :
    ({ sys with db := db' } : World).Inv where
  db := hdb
  delivered := by simpa only [hc] using h.delivered
  events := by simpa only [hc] using h.events

/-- A commit of the database keeps the invariant of the system. -/
theorem Inv.commit (h : sys.Inv) (hstep : sys.db.commit txn = some db') :
    ({ sys with db := db' } : World).Inv := by
  obtain rfl := Db.commit_eq_some hstep
  refine ⟨h.db.commit hstep, h.delivered.grow (List.subset_append_left _ _), ?_⟩
  have hres : ∀ e ∈ sys.client.receivedRows, sys.db.committed.Resolves e :=
    fun e he => (h.db.committed_wellFormed e (h.delivered.mem e he)).2
  exact ((List.forall₂_and_left _ _).2 ⟨hres, h.events⟩).imp fun e v hev =>
    (congrArg decodeRow (searchRow_append hev.1 _ _)).trans hev.2

/-- A poll of the client keeps the invariant. -/
theorem Inv.poll (h : sys.Inv) : ({ sys with client := sys.client.poll sys.db.committed }).Inv := by
  obtain ⟨events, hdecoded, hpoll⟩ := Client.poll_of_decodes sys.client
    h.db.committed_le fun e he _ => h.db.committed_decodes e he
  refine ⟨h.db, ?_, ?_⟩
  · simpa only [hpoll] using h.delivered.read h.db.committed_nodup
  · simpa only [hpoll] using List.rel_append h.events hdecoded

/-- Step lemma: every step keeps the invariant. -/
theorem Inv.step (h : sys.Inv) (hstep : sys.step a = some sys') : sys'.Inv := by
  cases a with
  | begin txn =>
      obtain ⟨db', hdb, rfl⟩ := Option.map_eq_some_iff.1 hstep
      exact h.of_committed_eq (h.db.begin hdb) (by rw [Db.begin_eq_some hdb])
  | insertIngestInvocation txn egressPublicKey rngVersion startBlock =>
      obtain ⟨db', hdb, rfl⟩ := Option.map_eq_some_iff.1 hstep
      obtain ⟨id, rfl⟩ := Db.insertIngestInvocation_eq_some hdb
      exact h.of_committed_eq (h.db.insertIngestInvocation hdb) rfl
  | insertNewIngestInvocationEvent txn iid =>
      obtain ⟨db', hdb, rfl⟩ := Option.map_eq_some_iff.1 hstep
      exact h.of_committed_eq (h.db.insertUserEvent (Or.inl ⟨iid, rfl⟩) hdb)
        (by rw [(Db.insertUserEvent_eq_some hdb).2.2])
  | insertDecommissionIngestInvocationEvent txn iid =>
      obtain ⟨db', hdb, rfl⟩ := Option.map_eq_some_iff.1 hstep
      exact h.of_committed_eq (h.db.insertUserEvent (Or.inr (Or.inl ⟨iid, rfl⟩)) hdb)
        (by rw [(Db.insertUserEvent_eq_some hdb).2.2])
  | insertMissingBlocksEvent txn blockRange =>
      obtain ⟨e, he, hstep⟩ := Option.bind_eq_some_iff.1 hstep
      obtain ⟨db', hdb, rfl⟩ := Option.map_eq_some_iff.1 hstep
      exact h.of_committed_eq (h.db.insertUserEvent (Or.inr (Or.inr ⟨blockRange, he⟩)) hdb)
        (by rw [(Db.insertUserEvent_eq_some hdb).2.2])
  | commit txn =>
      obtain ⟨db', hdb, rfl⟩ := Option.map_eq_some_iff.1 hstep
      exact h.commit hdb
  | rollback txn =>
      obtain ⟨db', hdb, rfl⟩ := Option.map_eq_some_iff.1 hstep
      exact h.of_committed_eq (h.db.rollback hdb) (by rw [Db.rollback_eq_some hdb])
  | poll =>
      cases hstep
      exact h.poll

/-- Run lemma: every run from a fresh database and a fresh client keeps the
invariant. -/
theorem inv_of_runSteps {ingestedBlocks : List IngestedBlock} {as : List Action}
    (h : runSteps step (new ingestedBlocks) as = some sys) : sys.Inv :=
  invariant_runSteps (fun _ _ _ hinv hstep => hinv.step hstep) (inv_new ingestedBlocks) h

/-- A later state of a run: committed rows stay committed, the client's cursor
has moved up or stayed, and the client has gained only rows above where its
cursor was. -/
def Extends (sys sys' : World) : Prop :=
  sys.db.committed.userEvents ⊆ sys'.db.committed.userEvents ∧
    sys.client.nextStartFromUserEventId ≤ sys'.client.nextStartFromUserEventId ∧
      ∃ rows, sys'.client.receivedRows = sys.client.receivedRows ++ rows ∧
        ∀ r ∈ rows, sys.client.nextStartFromUserEventId < r.id

/-- Every state extends itself. -/
theorem Extends.refl (sys : World) : Extends sys sys :=
  ⟨List.Subset.refl _, le_rfl, [], (List.append_nil _).symm, fun _ hr => absurd hr List.not_mem_nil⟩

/-- Extension is transitive. -/
theorem Extends.trans {sys₁ sys₂ sys₃ : World} (h₁₂ : Extends sys₁ sys₂) (h₂₃ : Extends sys₂ sys₃) :
    Extends sys₁ sys₃ := by
  obtain ⟨hsub₁₂, hle₁₂, rows₁, hrows₁, hlt₁⟩ := h₁₂
  obtain ⟨hsub₂₃, hle₂₃, rows₂, hrows₂, hlt₂⟩ := h₂₃
  refine ⟨List.Subset.trans hsub₁₂ hsub₂₃, hle₁₂.trans hle₂₃, rows₁ ++ rows₂,
    by rw [hrows₂, hrows₁, List.append_assoc], ?_⟩
  intro r hr
  rcases List.mem_append.1 hr with hr | hr
  · exact hlt₁ r hr
  · exact lt_of_le_of_lt hle₁₂ (hlt₂ r hr)

/-- What a step does to the committed rows and to the client: a statement keeps
the client and at most adds committed rows, a poll keeps the database. -/
theorem step_cases (hstep : sys.step a = some sys') :
    (sys'.client = sys.client ∧ sys.db.committed.userEvents ⊆ sys'.db.committed.userEvents) ∨
      sys' = { sys with client := sys.client.poll sys.db.committed } := by
  cases a with
  | begin txn =>
      obtain ⟨db', hdb, rfl⟩ := Option.map_eq_some_iff.1 hstep
      obtain rfl := Db.begin_eq_some hdb
      exact Or.inl ⟨rfl, List.Subset.refl _⟩
  | insertIngestInvocation txn egressPublicKey rngVersion startBlock =>
      obtain ⟨db', hdb, rfl⟩ := Option.map_eq_some_iff.1 hstep
      obtain ⟨id, rfl⟩ := Db.insertIngestInvocation_eq_some hdb
      exact Or.inl ⟨rfl, List.Subset.refl _⟩
  | insertNewIngestInvocationEvent txn iid =>
      obtain ⟨db', hdb, rfl⟩ := Option.map_eq_some_iff.1 hstep
      obtain ⟨-, -, rfl⟩ := Db.insertUserEvent_eq_some hdb
      exact Or.inl ⟨rfl, List.Subset.refl _⟩
  | insertDecommissionIngestInvocationEvent txn iid =>
      obtain ⟨db', hdb, rfl⟩ := Option.map_eq_some_iff.1 hstep
      obtain ⟨-, -, rfl⟩ := Db.insertUserEvent_eq_some hdb
      exact Or.inl ⟨rfl, List.Subset.refl _⟩
  | insertMissingBlocksEvent txn blockRange =>
      obtain ⟨e, -, hstep⟩ := Option.bind_eq_some_iff.1 hstep
      obtain ⟨db', hdb, rfl⟩ := Option.map_eq_some_iff.1 hstep
      obtain ⟨-, -, rfl⟩ := Db.insertUserEvent_eq_some hdb
      exact Or.inl ⟨rfl, List.Subset.refl _⟩
  | commit txn =>
      obtain ⟨db', hdb, rfl⟩ := Option.map_eq_some_iff.1 hstep
      obtain rfl := Db.commit_eq_some hdb
      exact Or.inl ⟨rfl, List.subset_append_left _ _⟩
  | rollback txn =>
      obtain ⟨db', hdb, rfl⟩ := Option.map_eq_some_iff.1 hstep
      obtain rfl := Db.rollback_eq_some hdb
      exact Or.inl ⟨rfl, List.Subset.refl _⟩
  | poll =>
      cases hstep
      exact Or.inr rfl

/-- Every step leads to a later state. -/
theorem step_extends (hstep : sys.step a = some sys') : Extends sys sys' := by
  rcases step_cases hstep with ⟨hclient, hsub⟩ | rfl
  · obtain ⟨-, hle, rows, hrows, hlt⟩ := Extends.refl sys
    exact ⟨hsub, hclient ▸ hle, rows, hclient ▸ hrows, hlt⟩
  · obtain ⟨hle, hrows⟩ := Client.poll_extends sys.client sys.db.committed
    exact ⟨List.Subset.refl _, hle, hrows⟩

/-- Run lemma: every run leads to a later state. -/
theorem extends_of_runSteps {as : List Action} (hrun : runSteps step sys as = some sys') :
    Extends sys sys' := by
  have hstep : ∀ (s : World) (a : Action) (s' : World), True → s.step a = some s' →
      True ∧ Extends s s' :=
    fun _ _ _ _ h => ⟨trivial, step_extends h⟩
  exact rel_runSteps Extends.refl (fun _ _ _ => Extends.trans) hstep trivial hrun

/-- A committed row at or below the cursor that the client does not hold is
never delivered, whatever the run goes on to do. -/
theorem not_mem_receivedRows_of_runSteps {as : List Action} {r : UserEvent}
    (hr : r.id ≤ sys.client.nextStartFromUserEventId) (hnot : r ∉ sys.client.receivedRows)
    (hrun : runSteps step sys as = some sys') : r ∉ sys'.client.receivedRows := by
  obtain ⟨-, -, rows, hrows, hlt⟩ := extends_of_runSteps hrun
  rw [hrows, List.mem_append, not_or]
  exact ⟨hnot, fun hmem => absurd (hlt r hmem) (not_lt.2 hr)⟩

/-! ### Runs whose transactions commit in id order -/

/-- In a run whose transactions commit in id order, committed ids stay below
uncommitted ones and below the sequence, so nothing arrives at or below the
client's cursor and the client misses nothing. -/
structure InOrderInv (sys : World) : Prop where
  inv : sys.Inv
  committed_lt : ∀ e ∈ sys.db.committed.userEvents, ∀ p ∈ sys.db.pendingUserEvents, e.id < p.2.id
  cursor_lt : ∀ p ∈ sys.db.pendingUserEvents, sys.client.nextStartFromUserEventId < p.2.id
  cursor_le : sys.client.nextStartFromUserEventId ≤ sys.db.lastUserEventId
  complete : Cursor.Complete UserEvent.id sys.db.committed.userEvents
    sys.client.nextStartFromUserEventId sys.client.receivedRows

/-- The fresh system satisfies the in-order invariant. -/
theorem inOrderInv_new (ingestedBlocks : List IngestedBlock) : (new ingestedBlocks).InOrderInv :=
  ⟨inv_new ingestedBlocks, fun _ h => absurd h List.not_mem_nil, fun _ h => absurd h List.not_mem_nil,
    le_rfl, Cursor.Complete.nil fun _ h => absurd h List.not_mem_nil⟩

/-- Inserting a user event keeps the in-order invariant. -/
theorem InOrderInv.insertUserEvent (h : sys.InOrderInv) {e : NewUserEvent}
    (hdb : sys.db.insertUserEvent txn e = some db') (hinv : ({ sys with db := db' } : World).Inv) :
    ({ sys with db := db' } : World).InOrderInv := by
  obtain ⟨-, -, rfl⟩ := Db.insertUserEvent_eq_some hdb
  have hcommitted : ∀ e ∈ sys.db.committed.userEvents, e.id ≤ sys.db.lastUserEventId :=
    fun e he => h.inv.db.le_last e (List.mem_append_left _ he)
  refine ⟨hinv, fun e he p hp => ?_, fun p hp => ?_, ?_, h.complete⟩
  · rcases List.mem_append.1 hp with hp | hp
    · exact h.committed_lt e he p hp
    · rw [List.mem_singleton] at hp
      subst hp
      exact Nat.lt_succ_of_le (hcommitted e he)
  · rcases List.mem_append.1 hp with hp | hp
    · exact h.cursor_lt p hp
    · rw [List.mem_singleton] at hp
      subst hp
      exact Nat.lt_succ_of_le h.cursor_le
  · exact h.cursor_le.trans (Nat.le_succ _)

/-- A commit in id order keeps the in-order invariant. -/
theorem InOrderInv.commit (h : sys.InOrderInv) (hdb : sys.db.commit txn = some db')
    (horder : sys.db.commitsInOrder txn = true) (hinv : ({ sys with db := db' } : World).Inv) :
    ({ sys with db := db' } : World).InOrderInv := by
  obtain rfl := Db.commit_eq_some hdb
  simp only [Db.commitsInOrder, List.all_eq_true, Bool.or_eq_true, decide_eq_true_eq] at horder
  refine ⟨hinv, fun e he q hq => ?_, fun q hq => h.cursor_lt q (List.mem_filter.1 hq).1,
    h.cursor_le, h.complete.grow (List.subset_append_left _ _) fun e he hold => ?_⟩
  · obtain ⟨hq, hqt⟩ := List.mem_filter.1 hq
    rcases List.mem_append.1 he with he | he
    · exact h.committed_lt e he q hq
    · obtain ⟨p, hp, rfl⟩ := List.mem_map.1 he
      obtain ⟨hp, hpt⟩ := List.mem_filter.1 hp
      rcases horder p hp with hne | hall
      · exact absurd (of_decide_eq_true hpt) hne
      · rcases hall q hq with heq | hlt
        · exact absurd heq (of_decide_eq_true hqt)
        · exact hlt
  · rcases List.mem_append.1 he with he | he
    · exact absurd he hold
    · obtain ⟨p, hp, rfl⟩ := List.mem_map.1 he
      exact h.cursor_lt p (List.mem_filter.1 hp).1

/-- A poll keeps the in-order invariant. -/
theorem InOrderInv.poll (h : sys.InOrderInv) :
    ({ sys with client := sys.client.poll sys.db.committed } : World).InOrderInv := by
  obtain ⟨events, -, hpoll⟩ := Client.poll_of_decodes sys.client
    h.inv.db.committed_le fun e he _ => h.inv.db.committed_decodes e he
  have hcommitted : ∀ e ∈ sys.db.committed.userEvents, e.id ≤ sys.db.lastUserEventId :=
    fun e he => h.inv.db.le_last e (List.mem_append_left _ he)
  refine ⟨h.inv.poll, h.committed_lt, fun p hp => ?_, ?_, ?_⟩
  · have hle : Cursor.advance UserEvent.id sys.db.committed.userEvents
        sys.client.nextStartFromUserEventId ≤ p.2.id - 1 :=
      Cursor.advance_le (by have := h.cursor_lt p hp; omega)
        fun e he _ => by have := h.committed_lt e he p hp; omega
    simp only [hpoll]
    have := h.cursor_lt p hp
    omega
  · simpa only [hpoll] using Cursor.advance_le h.cursor_le fun e he _ => hcommitted e he
  · simpa only [hpoll] using h.complete.read h.inv.db.committed_nodup

/-- Step lemma of the in-order runs. -/
theorem InOrderInv.stepInOrder (h : sys.InOrderInv) (hstep : sys.stepInOrder a = some sys') :
    sys'.InOrderInv := by
  obtain ⟨hstep, horder⟩ := stepInOrder_eq_some hstep
  have hinv := h.inv.step hstep
  cases a with
  | begin txn =>
      obtain ⟨db', hdb, rfl⟩ := Option.map_eq_some_iff.1 hstep
      obtain rfl := Db.begin_eq_some hdb
      exact ⟨hinv, h.committed_lt, h.cursor_lt, h.cursor_le, h.complete⟩
  | insertIngestInvocation txn egressPublicKey rngVersion startBlock =>
      obtain ⟨db', hdb, rfl⟩ := Option.map_eq_some_iff.1 hstep
      obtain ⟨id, rfl⟩ := Db.insertIngestInvocation_eq_some hdb
      exact ⟨hinv, h.committed_lt, h.cursor_lt, h.cursor_le, h.complete⟩
  | insertNewIngestInvocationEvent txn iid =>
      obtain ⟨db', hdb, rfl⟩ := Option.map_eq_some_iff.1 hstep
      exact h.insertUserEvent hdb hinv
  | insertDecommissionIngestInvocationEvent txn iid =>
      obtain ⟨db', hdb, rfl⟩ := Option.map_eq_some_iff.1 hstep
      exact h.insertUserEvent hdb hinv
  | insertMissingBlocksEvent txn blockRange =>
      obtain ⟨e, -, hstep⟩ := Option.bind_eq_some_iff.1 hstep
      obtain ⟨db', hdb, rfl⟩ := Option.map_eq_some_iff.1 hstep
      exact h.insertUserEvent hdb hinv
  | commit txn =>
      obtain ⟨db', hdb, rfl⟩ := Option.map_eq_some_iff.1 hstep
      exact h.commit hdb (horder txn rfl) hinv
  | rollback txn =>
      obtain ⟨db', hdb, rfl⟩ := Option.map_eq_some_iff.1 hstep
      obtain rfl := Db.rollback_eq_some hdb
      exact ⟨hinv, fun e he p hp => h.committed_lt e he p (List.mem_filter.1 hp).1,
        fun p hp => h.cursor_lt p (List.mem_filter.1 hp).1, h.cursor_le, h.complete⟩
  | poll =>
      cases hstep
      exact h.poll

/-- Run lemma of the in-order runs. -/
theorem inOrderInv_of_runSteps {ingestedBlocks : List IngestedBlock} {as : List Action}
    (h : runSteps stepInOrder (new ingestedBlocks) as = some sys) : sys.InOrderInv :=
  invariant_runSteps (fun _ _ _ hinv hstep => hinv.stepInOrder hstep) (inOrderInv_new ingestedBlocks) h

end World

/-! ## What the client receives -/

open World in
/-- Whatever the order in which transactions commit, a client polling a fresh
database never receives an event twice or out of order: its events are the
decodings of a sublist of the committed rows in id order.  If moreover every
transaction commits in id order, a poll at the end leaves the client with the
events of all committed rows, in id order, each once. -/
theorem searchUserEvents_delivers_committed_events (ingestedBlocks : List IngestedBlock)
    (as : List Action) :
    (∀ sys, runSteps World.step (World.new ingestedBlocks) as = some sys →
      ∃ rows, List.Sublist rows (inIdOrder sys.db.committed.userEvents) ∧
        List.Forall₂ (fun e v => decodeRow (sys.db.committed.searchRow e) = .ok v) rows
          sys.client.events) ∧
    (∀ sys, runSteps World.stepInOrder (World.new ingestedBlocks) (as ++ [.poll]) = some sys →
      List.Forall₂ (fun e v => decodeRow (sys.db.committed.searchRow e) = .ok v)
        (inIdOrder sys.db.committed.userEvents) sys.client.events) := by
  refine ⟨fun sys hrun => ?_, fun sys hrun => ?_⟩
  · have h := inv_of_runSteps hrun
    exact ⟨sys.client.receivedRows, h.delivered.sublist_insertionSort h.db.committed_nodup,
      h.events⟩
  · obtain ⟨sys₀, hrun₀, hlast⟩ := runSteps_append_eq_some hrun
    obtain ⟨sys₁, hpoll, hnil⟩ := Option.bind_eq_some_iff.1 hlast
    obtain rfl : sys₁ = sys := Option.some.inj hnil
    cases hpoll
    have h₀ := inOrderInv_of_runSteps hrun₀
    have h := h₀.poll
    obtain ⟨events, -, hp⟩ := Client.poll_of_decodes sys₀.client h₀.inv.db.committed_le
      fun e he _ => h₀.inv.db.committed_decodes e he
    have hcover : ∀ e ∈ sys₀.db.committed.userEvents,
        e.id ≤ (sys₀.client.poll sys₀.db.committed).nextStartFromUserEventId := by
      intro e he
      rw [hp]
      exact Cursor.le_advance_of_mem he
    have heq := h.complete.eq_filter h.inv.db.committed_nodup
    rw [List.filter_eq_self.2 fun e he =>
      decide_eq_true (hcover e ((List.mem_insertionSort _).1 he))] at heq
    unfold inIdOrder
    rw [← heq]
    exact h.inv.events

/-- Two transactions, each inserting one event, that commit in id order. -/
def inOrderRun : List Action :=
  [.begin 1, .insertMissingBlocksEvent 1 ⟨0, 5⟩, .commit 1,
    .begin 2, .insertMissingBlocksEvent 2 ⟨5, 9⟩, .commit 2]

/-- Two transactions that commit in id order, then a poll: the client holds both
events, in id order. -/
theorem searchUserEvents_delivers_committed_events_inOrderRun :
    ∃ sys, runSteps World.stepInOrder (World.new []) (inOrderRun ++ [.poll]) = some sys ∧
      List.Forall₂ (fun e v => decodeRow (sys.db.committed.searchRow e) = .ok v)
        (inIdOrder sys.db.committed.userEvents) sys.client.events :=
  ⟨_, rfl, (searchUserEvents_delivers_committed_events [] inOrderRun).2 _ rfl⟩

/-- Two transactions insert missing-blocks events; the one holding the larger id
commits first and the client polls, then the other commits and the client polls
again. -/
def lateCommitRun : List Action :=
  [.begin 1, .insertMissingBlocksEvent 1 ⟨0, 5⟩, .begin 2, .insertMissingBlocksEvent 2 ⟨5, 9⟩,
    .commit 2, .poll, .commit 1, .poll]

/-- The event row of a missing block range. -/
def missingBlocksRow (id startBlock endBlock : Nat) : UserEvent :=
  ⟨id, ⟨.missingBlocks, none, none, some startBlock, some endBlock⟩⟩

/-- The state after {lit}`lateCommitRun`: both events are committed, and the
client holds the one with id 2, with its cursor at 2. -/
def lateCommitState : World where
  db :=
    { committed := ⟨[], [], [missingBlocksRow 2 5 9, missingBlocksRow 1 0 5]⟩
      lastIngestInvocationId := 0
      lastUserEventId := 2
      openTransactions := []
      pendingIngestInvocations := []
      pendingUserEvents := [] }
  client :=
    { nextStartFromUserEventId := 2
      events := [.missingBlocks ⟨5, 9⟩]
      receivedRows := [missingBlocksRow 2 5 9] }

/-- The run with the late commit ends in the state described. -/
theorem runSteps_lateCommitRun :
    runSteps World.step (World.new []) lateCommitRun = some lateCommitState := by
  decide

/-- A transaction that commits after a later-numbered one, once the client has
polled in between, is never delivered: its event is committed and readable, the
client never receives it, and no continuation of the run ever gives the client
all committed events. -/
theorem searchUserEvents_misses_late_commit :
    runSteps World.step (World.new []) lateCommitRun = some lateCommitState ∧
      (inIdOrder lateCommitState.db.committed.userEvents).map
          (fun e => (decodeRow (lateCommitState.db.committed.searchRow e)).toOption) =
        [some (.missingBlocks ⟨0, 5⟩), some (.missingBlocks ⟨5, 9⟩)] ∧
      lateCommitState.client.events = [.missingBlocks ⟨5, 9⟩] ∧
      ∀ as sys', runSteps World.step lateCommitState as = some sys' →
        ¬ List.Forall₂ (fun e v => decodeRow (sys'.db.committed.searchRow e) = .ok v)
          (inIdOrder sys'.db.committed.userEvents) sys'.client.events := by
  refine ⟨runSteps_lateCommitRun, by decide, rfl, fun as sys' hrun hall => ?_⟩
  have hrun' : runSteps World.step (World.new []) (lateCommitRun ++ as) = some sys' := by
    rw [runSteps_append, runSteps_lateCommitRun, Option.bind_some, hrun]
  have hinv := World.inv_of_runSteps hrun'
  have hlost := World.not_mem_receivedRows_of_runSteps (r := missingBlocksRow 1 0 5)
    (by decide) (by decide) hrun
  have hcommitted : missingBlocksRow 1 0 5 ∈ sys'.db.committed.userEvents :=
    (World.extends_of_runSteps hrun).1 (by decide)
  have hlen : sys'.client.receivedRows.length = (inIdOrder sys'.db.committed.userEvents).length :=
    hinv.events.length_eq.trans hall.length_eq.symm
  have hall_rows := (hinv.delivered.sublist_insertionSort hinv.db.committed_nodup).eq_of_length hlen
  apply hlost
  rw [hall_rows]
  exact (List.mem_insertionSort _).2 hcommitted

end RecoveryDb
end Fog
