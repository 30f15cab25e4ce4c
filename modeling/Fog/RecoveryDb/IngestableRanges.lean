import Fog.RecoveryDb.SqlRecoveryDb

/-!
# The ingestable ranges

{lit}`get_ingestable_ranges` of {lit}`fog/sql_recovery_db/src/lib.rs` reads the
rows of {lit}`ingest_invocations` in the order of their ids, each with the
largest block number the invocation ingested, and
{lit}`IngestableRange::can_provide_block` of
{lit}`fog/recovery_db_iface/src/types.rs` is how a client reads one of them:
an invocation provides the blocks from its start block on, and once it is
decommissioned only those up to the last block it ingested.

The model's table of invocations is a function of the id.  The query reads it
over the ids the sequence handed out, from one to the last one; every database
the operations build keeps its ids in that interval
({lit}`IngestDb.IdsBounded`), so that the query reads every row.

Main results:

- Theorem {lit}`IngestableRange.canProvideBlock_eq_true_iff`: what a range
  promises.
- Theorems {lit}`SqlRecoveryDb.mem_getIngestableRanges` and
  {lit}`SqlRecoveryDb.exists_mem_getIngestableRanges_iff`: the ranges are the
  rows of the table, one for each invocation, and
  {lit}`SqlRecoveryDb.pairwise_getIngestableRanges`: in increasing order of id.
- Definition {lit}`IngestDb.InvocationsKept` and the theorems after it: every
  operation keeps each invocation's start block, and a decommissioned one stays
  decommissioned.
-/

namespace Fog
namespace RecoveryDb

/-- {lit}`IngestableRange`: an invocation, the first block it ingests, whether it
is decommissioned, and the last block it ingested. -/
structure IngestableRange where
  id : Nat
  startBlock : Nat
  decommissioned : Bool
  lastIngestedBlock : Option Nat
deriving DecidableEq, Repr

namespace IngestableRange

/-- {lit}`can_provide_block`: whether the invocation has, or will have, data for
the block. -/
def canProvideBlock (self : IngestableRange) (block : Nat) : Bool :=
  if block < self.startBlock then false
  else if self.decommissioned then
    match self.lastIngestedBlock with
    | some lastIngestedBlock => decide (lastIngestedBlock ≥ block)
    | none => false
  else true

/-- A range provides the blocks from its start on; a decommissioned one only
those up to its last ingested block. -/
theorem canProvideBlock_eq_true_iff (r : IngestableRange) (block : Nat) :
    r.canProvideBlock block = true ↔
      r.startBlock ≤ block ∧
        (r.decommissioned = true → ∃ l, r.lastIngestedBlock = some l ∧ block ≤ l) := by
  unfold canProvideBlock
  by_cases hlt : block < r.startBlock
  · simp [hlt]
  · have hle : r.startBlock ≤ block := Nat.le_of_not_lt hlt
    cases r.decommissioned
    · simp [hlt, hle]
    · cases r.lastIngestedBlock <;> simp [hlt, hle]

end IngestableRange

/-! ## The invocations of the tables -/

namespace IngestDb

variable {K : Type}

/-- The block numbers of the rows of {lit}`ingested_blocks` of an invocation, in
the order they were inserted. -/
def invocationBlocks (db : IngestDb K) (id : Nat) : List Nat :=
  (db.ingestedBlocks.filter (·.ingestInvocationId = id)).map (·.blockNumber)

/-- Every invocation has an id that the sequence handed out. -/
def IdsBounded (db : IngestDb K) : Prop :=
  ∀ id, (db.ingestInvocations id).isSome → 1 ≤ id ∧ id ≤ db.lastIngestInvocationId

/-- From {lit}`db` to {lit}`db'`, every invocation keeps its start block, and a
decommissioned one stays decommissioned. -/
def InvocationsKept (db db' : IngestDb K) : Prop :=
  ∀ id row, db.ingestInvocations id = some row →
    ∃ row', db'.ingestInvocations id = some row' ∧ row'.startBlock = row.startBlock ∧
      (row.decommissioned = true → row'.decommissioned = true)

/-- A block belongs to an invocation's blocks when a row of that invocation
names it. -/
theorem mem_invocationBlocks {db : IngestDb K} {id block : Nat} :
    block ∈ db.invocationBlocks id ↔
      ∃ row ∈ db.ingestedBlocks, row.ingestInvocationId = id ∧ row.blockNumber = block := by
  simp [invocationBlocks, and_assoc]

/-- Rows appended under other invocations leave an invocation's blocks alone. -/
theorem invocationBlocks_of_append {db db' : IngestDb K} {rows : List (IngestedBlockRow K)}
    (h : db'.ingestedBlocks = db.ingestedBlocks ++ rows) {id : Nat}
    (hne : ∀ row ∈ rows, row.ingestInvocationId ≠ id) :
    db'.invocationBlocks id = db.invocationBlocks id := by
  have hnil : rows.filter (·.ingestInvocationId = id) = [] :=
    List.filter_eq_nil_iff.2 fun row hrow => by simpa using hne row hrow
  unfold invocationBlocks
  rw [h, List.filter_append, hnil, List.append_nil]

/-- The empty database has no invocation to bound. -/
theorem idsBounded_empty : (empty : IngestDb K).IdsBounded :=
  fun _ h => by cases h

/-- A change that leaves the invocations and the sequence alone keeps the ids
bounded. -/
theorem IdsBounded.of_eq {db db' : IngestDb K} (h : db.IdsBounded)
    (hinv : db'.ingestInvocations = db.ingestInvocations)
    (hlast : db'.lastIngestInvocationId = db.lastIngestInvocationId) : db'.IdsBounded := by
  intro id hid
  rw [hinv] at hid
  rw [hlast]
  exact h id hid

/-- Every database keeps its own invocations. -/
theorem InvocationsKept.refl (db : IngestDb K) : InvocationsKept db db :=
  fun _ row h => ⟨row, h, rfl, fun hdec => hdec⟩

/-- Keeping the invocations is transitive. -/
theorem InvocationsKept.trans {db db' db'' : IngestDb K} (h : InvocationsKept db db')
    (h' : InvocationsKept db' db'') : InvocationsKept db db'' := by
  intro i row hrow
  obtain ⟨row', hrow', hstart, hdec⟩ := h i row hrow
  obtain ⟨row'', hrow'', hstart', hdec'⟩ := h' i row' hrow'
  exact ⟨row'', hrow'', hstart'.trans hstart, hdec'.comp hdec⟩

/-- A change that leaves the invocations alone keeps them. -/
theorem InvocationsKept.of_eq {db db' : IngestDb K}
    (hinv : db'.ingestInvocations = db.ingestInvocations) : InvocationsKept db db' := by
  intro i row hrow
  rw [← hinv] at hrow
  exact ⟨row, hrow, rfl, fun hdec => hdec⟩

/-! ## Decommissioning and inserting -/

/-- Decommissioning changes no other invocation, nor the sequence. -/
theorem decommissionIngestInvocation_invocations {db db' : IngestDb K} {id : Nat}
    (h : db.decommissionIngestInvocation id = .ok db') :
    db'.ingestInvocations = Function.update db.ingestInvocations id
        ((db.ingestInvocations id).map fun row => { row with decommissioned := true }) ∧
      db'.lastIngestInvocationId = db.lastIngestInvocationId := by
  unfold decommissionIngestInvocation at h
  rw [insertUserEvent_eq_ok h]
  exact ⟨rfl, rfl⟩

/-- An insertion draws the next id of the sequence, free until then, and
changes no other invocation. -/
theorem insertIngestInvocation_invocations {db db' : IngestDb K} {key : K} {startBlock id : Nat}
    (h : db.insertIngestInvocation key startBlock = .ok (id, db')) :
    id = db.lastIngestInvocationId + 1 ∧ db.ingestInvocations id = none ∧
      db'.ingestInvocations = Function.update db.ingestInvocations id
        (some { ingressPublicKey := key, startBlock, decommissioned := false }) ∧
      db'.lastIngestInvocationId = id := by
  unfold insertIngestInvocation at h
  split at h
  · cases h
  · split at h
    · cases h
    · rename_i hfree
      obtain ⟨db'', hevent, hpair⟩ := Except.map_eq_ok.1 h
      cases hpair
      rw [insertUserEvent_eq_ok hevent]
      exact ⟨rfl, Option.not_isSome_iff_eq_none.1 hfree, rfl, rfl⟩

/-- A decommission keeps the ids bounded. -/
theorem IdsBounded.decommissionIngestInvocation {db db' : IngestDb K} (h : db.IdsBounded)
    {id : Nat} (hdec : db.decommissionIngestInvocation id = .ok db') : db'.IdsBounded := by
  obtain ⟨hinv, hlast⟩ := decommissionIngestInvocation_invocations hdec
  intro i hi
  rw [hlast]
  rw [hinv] at hi
  by_cases hii : i = id
  · subst hii
    simp only [Function.update_self, Option.isSome_map] at hi
    exact h i hi
  · rw [Function.update_of_ne hii] at hi
    exact h i hi

/-- A decommission keeps every invocation's start block, and decommissions only.
-/
theorem InvocationsKept.decommissionIngestInvocation {db db' : IngestDb K} {id : Nat}
    (hdec : db.decommissionIngestInvocation id = .ok db') : InvocationsKept db db' := by
  obtain ⟨hinv, -⟩ := decommissionIngestInvocation_invocations hdec
  intro i row hrow
  rw [hinv]
  by_cases hii : i = id
  · subst hii
    exact ⟨{ row with decommissioned := true }, by simp [hrow], rfl, fun _ => rfl⟩
  · exact ⟨row, by rw [Function.update_of_ne hii, hrow], rfl, fun hdec => hdec⟩

/-- An inserted invocation takes the next id of the sequence, so the ids stay
bounded. -/
theorem IdsBounded.insertIngestInvocation {db db' : IngestDb K} (h : db.IdsBounded) {key : K}
    {startBlock id : Nat} (hins : db.insertIngestInvocation key startBlock = .ok (id, db')) :
    db'.IdsBounded := by
  obtain ⟨rfl, -, hinv, hlast⟩ := insertIngestInvocation_invocations hins
  intro i hi
  rw [hlast]
  rw [hinv] at hi
  by_cases hii : i = db.lastIngestInvocationId + 1
  · exact ⟨by omega, hii.le⟩
  · rw [Function.update_of_ne hii] at hi
    have := h i hi
    omega

/-- An insertion adds an invocation under a fresh id and keeps the others. -/
theorem InvocationsKept.insertIngestInvocation {db db' : IngestDb K} {key : K}
    {startBlock id : Nat} (hins : db.insertIngestInvocation key startBlock = .ok (id, db')) :
    InvocationsKept db db' := by
  obtain ⟨-, hfree, hinv, -⟩ := insertIngestInvocation_invocations hins
  intro i row hrow
  have hii : i ≠ id := by
    rintro rfl
    rw [hfree] at hrow
    cases hrow
  exact ⟨row, by rw [hinv, Function.update_of_ne hii, hrow], rfl, fun hdec => hdec⟩

/-- A new invocation leaves every other invocation that exists, but the one it
decommissions, as it is, and its id was free. -/
theorem newIngestInvocation_invocations {db db' : IngestDb K} {prev : Option Nat} {key : K}
    {startBlock id : Nat} (h : db.newIngestInvocation prev key startBlock = .ok (id, db')) :
    db.ingestInvocations id = none ∧
      ∀ i, i ≠ id → prev ≠ some i → db'.ingestInvocations i = db.ingestInvocations i := by
  unfold newIngestInvocation at h
  cases prev with
  | none =>
      obtain ⟨-, hfree, hinv, -⟩ := insertIngestInvocation_invocations h
      exact ⟨hfree, fun i hi _ => by rw [hinv, Function.update_of_ne hi]⟩
  | some p =>
      cases hdec : db.decommissionIngestInvocation p with
      | error err => simp [hdec] at h
      | ok db₁ =>
          simp only [hdec] at h
          obtain ⟨hinv₁, -⟩ := decommissionIngestInvocation_invocations hdec
          obtain ⟨-, hfree, hinv, -⟩ := insertIngestInvocation_invocations h
          have hfree' : db.ingestInvocations id = none := by
            rw [hinv₁] at hfree
            by_cases hid : id = p
            · subst hid
              simpa using hfree
            · rwa [Function.update_of_ne hid] at hfree
          refine ⟨hfree', fun i hi hprev => ?_⟩
          have hip : i ≠ p := fun h => hprev (h ▸ rfl)
          rw [hinv, Function.update_of_ne hi, hinv₁, Function.update_of_ne hip]

/-- A new invocation keeps the ids bounded. -/
theorem IdsBounded.newIngestInvocation {db db' : IngestDb K} (h : db.IdsBounded)
    {prev : Option Nat} {key : K} {startBlock id : Nat}
    (hnew : db.newIngestInvocation prev key startBlock = .ok (id, db')) : db'.IdsBounded := by
  unfold IngestDb.newIngestInvocation at hnew
  cases prev with
  | none => exact h.insertIngestInvocation hnew
  | some p =>
      cases hdec : db.decommissionIngestInvocation p with
      | error err => simp [hdec] at hnew
      | ok db₁ =>
          simp only [hdec] at hnew
          exact (h.decommissionIngestInvocation hdec).insertIngestInvocation hnew

/-- A new invocation keeps the invocations there were, up to the decommission of
the one it replaces. -/
theorem InvocationsKept.newIngestInvocation {db db' : IngestDb K} {prev : Option Nat} {key : K}
    {startBlock id : Nat} (hnew : db.newIngestInvocation prev key startBlock = .ok (id, db')) :
    InvocationsKept db db' := by
  unfold IngestDb.newIngestInvocation at hnew
  cases prev with
  | none => exact InvocationsKept.insertIngestInvocation hnew
  | some p =>
      cases hdec : db.decommissionIngestInvocation p with
      | error err => simp [hdec] at hnew
      | ok db₁ =>
          simp only [hdec] at hnew
          exact (InvocationsKept.decommissionIngestInvocation hdec).trans
            (InvocationsKept.insertIngestInvocation hnew)

end IngestDb

/-! ## The query -/

namespace SqlRecoveryDb

variable {K Rec : Type}

/-- {lit}`get_ingestable_ranges`: every invocation in the order of its id, with
its start block, whether it is decommissioned, and the largest block number it
ingested. -/
def getIngestableRanges (db : SqlRecoveryDb K Rec) : List IngestableRange :=
  (List.range' 1 db.tables.lastIngestInvocationId).filterMap fun id =>
    (db.tables.ingestInvocations id).map fun row =>
      { id
        startBlock := row.startBlock
        decommissioned := row.decommissioned
        lastIngestedBlock := (db.tables.invocationBlocks id).max? }

/-- The ranges reported are exactly those of the invocations with an id of the
sequence, each with its start, its flag and its last ingested block. -/
theorem mem_getIngestableRanges {db : SqlRecoveryDb K Rec} {r : IngestableRange} :
    r ∈ db.getIngestableRanges ↔
      1 ≤ r.id ∧ r.id ≤ db.tables.lastIngestInvocationId ∧
        ∃ row, db.tables.ingestInvocations r.id = some row ∧ r.startBlock = row.startBlock ∧
          r.decommissioned = row.decommissioned ∧
          r.lastIngestedBlock = (db.tables.invocationBlocks r.id).max? := by
  unfold getIngestableRanges
  rw [List.mem_filterMap]
  constructor
  · rintro ⟨id, hid, hr⟩
    obtain ⟨row, hrow, rfl⟩ := Option.map_eq_some_iff.1 hr
    rw [List.mem_range'_1] at hid
    exact ⟨hid.1, Nat.le_of_lt_succ (by simpa [Nat.add_comm] using hid.2), row, hrow, rfl, rfl, rfl⟩
  · obtain ⟨id, startBlock, decommissioned, lastIngestedBlock⟩ := r
    rintro ⟨h1, h2, row, hrow, hstart, hdec, hlast⟩
    dsimp only at h1 h2 hrow hstart hdec hlast
    subst hstart hdec hlast
    exact ⟨id, List.mem_range'_1.2 ⟨h1, by omega⟩, Option.map_eq_some_iff.2 ⟨row, hrow, rfl⟩⟩

/-- With the ids bounded, the query finds every invocation. -/
theorem exists_mem_getIngestableRanges_iff {db : SqlRecoveryDb K Rec} (h : db.tables.IdsBounded)
    (id : Nat) :
    (∃ r ∈ db.getIngestableRanges, r.id = id) ↔ (db.tables.ingestInvocations id).isSome := by
  constructor
  · rintro ⟨r, hr, rfl⟩
    obtain ⟨-, -, row, hrow, -⟩ := mem_getIngestableRanges.1 hr
    simp [hrow]
  · intro hid
    obtain ⟨row, hrow⟩ := Option.isSome_iff_exists.1 hid
    obtain ⟨h1, h2⟩ := h id hid
    let r : IngestableRange :=
      ⟨id, row.startBlock, row.decommissioned, (db.tables.invocationBlocks id).max?⟩
    exact ⟨r, mem_getIngestableRanges.2 ⟨h1, h2, row, hrow, rfl, rfl, rfl⟩, rfl⟩

/-- The ranges come in increasing order of id, so one for each invocation. -/
theorem pairwise_getIngestableRanges (db : SqlRecoveryDb K Rec) :
    db.getIngestableRanges.Pairwise fun r r' => r.id < r'.id := by
  unfold getIngestableRanges
  refine List.Pairwise.filterMap _ (fun a a' hlt b hb b' hb' => ?_) (List.pairwise_lt_range' 1)
  obtain ⟨_, -, rfl⟩ := Option.map_eq_some_iff.1 hb
  obtain ⟨_, -, rfl⟩ := Option.map_eq_some_iff.1 hb'
  exact hlt

/-! ## What the transactions do to the invocations

{lit}`set_report`, {lit}`new_ingress_key` and {lit}`retire_ingress_key` leave the
invocations, the sequence and the scanned blocks alone; {lit}`add_block_data`
only appends a block; {lit}`decommission_ingest_invocation` and
{lit}`new_ingest_invocation` change the invocations named. -/

/-- The part of the tables a transaction may leave alone. -/
structure InvocationsSame (db db' : SqlRecoveryDb K Rec) : Prop where
  invocations : db'.tables.ingestInvocations = db.tables.ingestInvocations
  lastId : db'.tables.lastIngestInvocationId = db.tables.lastIngestInvocationId
  blocks : db'.tables.ingestedBlocks = db.tables.ingestedBlocks

/-- A transaction that leaves the invocations alone keeps the ids bounded. -/
theorem InvocationsSame.idsBounded {db db' : SqlRecoveryDb K Rec} (h : InvocationsSame db db')
    (hb : db.tables.IdsBounded) : db'.tables.IdsBounded :=
  hb.of_eq h.invocations h.lastId

/-- A transaction that leaves the invocations alone keeps them. -/
theorem InvocationsSame.kept {db db' : SqlRecoveryDb K Rec} (h : InvocationsSame db db') :
    db.tables.InvocationsKept db'.tables :=
  IngestDb.InvocationsKept.of_eq h.invocations

/-- {lit}`new_ingest_invocation` records the egress key under the new id. -/
theorem mem_egressPublicKeys_newIngestInvocation {db db' : SqlRecoveryDb K Rec}
    {prev : Option Nat} {key : K} {egress : KexRng.KexRngPubkey} {startBlock id : Nat}
    (h : db.newIngestInvocation prev key egress startBlock = .ok (id, db')) :
    (id, egress) ∈ db'.egressPublicKeys := by
  unfold newIngestInvocation at h
  split at h
  · cases h
  · obtain ⟨⟨id', tables⟩, -, hpair⟩ := Except.map_eq_ok.1 h
    cases hpair
    exact List.mem_append_right _ (List.mem_singleton_self _)

/-- An egress key already recorded fails {lit}`new_ingest_invocation` on the
uniqueness of its column. -/
theorem newIngestInvocation_of_mem_egressPublicKeys {db : SqlRecoveryDb K Rec} {id : Nat}
    {egress : KexRng.KexRngPubkey} (h : (id, egress) ∈ db.egressPublicKeys) (prev : Option Nat)
    (key : K) (startBlock : Nat) :
    db.newIngestInvocation prev key egress startBlock = .error (.orm .uniqueViolation) := by
  have hany : db.egressPublicKeys.any (fun e => e.2.publicKey = egress.publicKey) = true :=
    List.any_eq_true.2 ⟨_, h, by simp⟩
  unfold newIngestInvocation
  rw [if_pos hany]

variable [DecidableEq K]

/-- {lit}`set_report` leaves the invocations alone. -/
theorem invocationsSame_setReport {db db' : SqlRecoveryDb K Rec} {key : K} {reportId : String}
    {data : ReportData} {result : IngressPublicKeyStatus}
    (h : db.setReport key reportId data = .ok (result, db')) : InvocationsSame db db' := by
  obtain ⟨status, -, ⟨-, -, rfl⟩ | ⟨-, -, -, rfl⟩⟩ := setReport_eq_ok_iff.1 h <;> exact ⟨rfl, rfl, rfl⟩

/-- {lit}`new_ingress_key` leaves the invocations alone. -/
theorem invocationsSame_newIngressKey (db : SqlRecoveryDb K Rec) (key : K) (startBlock : Nat) :
    InvocationsSame db (db.newIngressKey key startBlock).2 := by
  unfold newIngressKey IngestDb.newIngressKey
  split <;> exact ⟨rfl, rfl, rfl⟩

/-- {lit}`retire_ingress_key` leaves the invocations alone. -/
theorem invocationsSame_retireIngressKey (db : SqlRecoveryDb K Rec) (key : K) (setRetired : Bool) :
    InvocationsSame db (db.retireIngressKey key setRetired) :=
  ⟨rfl, rfl, rfl⟩

/-- {lit}`add_block_data` changes no invocation, and appends at most the block's
row under the invocation's key. -/
theorem addBlockData_invocations {db db' : SqlRecoveryDb K Rec} {id blockIndex : Nat}
    {records : List Rec} {scanned : Bool}
    (h : db.addBlockData id blockIndex records = .ok (scanned, db')) :
    db'.tables.ingestInvocations = db.tables.ingestInvocations ∧
      db'.tables.lastIngestInvocationId = db.tables.lastIngestInvocationId ∧
      ∃ inv, db.tables.ingestInvocations id = some inv ∧
        (db'.tables.ingestedBlocks = db.tables.ingestedBlocks ∨
          db'.tables.ingestedBlocks =
            db.tables.ingestedBlocks ++ [⟨inv.ingressPublicKey, id, blockIndex⟩]) := by
  obtain ⟨inv, hinv, -, -, rfl⟩ := addBlockData_eq_ok_iff.1 h
  split
  · exact ⟨rfl, rfl, inv, hinv, .inl rfl⟩
  · exact ⟨rfl, rfl, inv, hinv, .inr rfl⟩

omit [DecidableEq K] in
/-- The decommission of the store is the decommission of its tables. -/
theorem decommissionIngestInvocation_tables {db db' : SqlRecoveryDb K Rec} {id : Nat}
    (h : db.decommissionIngestInvocation id = .ok db') :
    db.tables.decommissionIngestInvocation id = .ok db'.tables := by
  obtain ⟨tables, htables, rfl⟩ := Except.map_eq_ok.1 h
  exact htables

omit [DecidableEq K] in
/-- The new invocation of the store is the new invocation of its tables. -/
theorem newIngestInvocation_tables {db db' : SqlRecoveryDb K Rec} {prev : Option Nat} {key : K}
    {egress : KexRng.KexRngPubkey} {startBlock id : Nat}
    (h : db.newIngestInvocation prev key egress startBlock = .ok (id, db')) :
    db.tables.newIngestInvocation prev key startBlock = .ok (id, db'.tables) := by
  unfold newIngestInvocation at h
  split at h
  · cases h
  · obtain ⟨⟨id', tables⟩, htables, hpair⟩ := Except.map_eq_ok.1 h
    cases hpair
    exact htables

end SqlRecoveryDb

end RecoveryDb
end Fog
