import Mathlib.Tactic.Common

/-!
# Recovery database records

The records that the recovery database returns about ingress keys, and the
block ranges reported missing, as in `fog/recovery_db_iface/src/types.rs` and
`fog/fog_types/src/common.rs`.

Block indices and counts are `u64` in the source and are modelled as natural
numbers.  The workspace's release profile sets `overflow-checks = false`, so
the increments of the source wrap at `2^64`: `next_block_index += 1` in
`controller_state.rs`, and `last_processed_block + 1`,
`previous_block_index + 1`, `last_highest_processed_block_count + 1` and
`block_index + 1` in `block_tracker.rs`.  The natural-number model computes each
of them as the source does while the index incremented is below `2^64 - 1`,
that is, for a ledger of fewer than `2^64 - 1` blocks; the results of the
ingest and view layers are about such ledgers.  Indices stored in the database
stay below the `i64` bound of its `BIGINT` columns as well.

The ingress public key is a type parameter with decidable equality; nothing
here reads its bytes.

Main results:

- Theorem {lit}`IngressPublicKeyRecord.coversBlockIndex_iff`: a record covers
  exactly the indices from its start block below its end marker, so its
  coverage is an interval.
- Theorem {lit}`IngressPublicKeyRecord.coversBlockIndex_of_le`: coverage is
  closed downwards to the start block.
-/

namespace Fog
namespace RecoveryDb

/-- Status in the database connected to an ingress public key. -/
structure IngressPublicKeyStatus where
  /-- The first block that fog promises to scan with this key. -/
  startBlock : Nat
  /-- The largest pubkey expiry value ever published for this key. -/
  pubkeyExpiry : Nat
  /-- Whether this key is retiring or retired. -/
  retired : Bool
  /-- Whether this key is lost. -/
  lost : Bool
deriving DecidableEq, Repr

/-- An ingress key status together with the key and the last block scanned with
it, as returned by {lit}`get_ingress_key_records`. -/
structure IngressPublicKeyRecord (K : Type) where
  key : K
  status : IngressPublicKeyStatus
  lastScannedBlock : Option Nat
deriving DecidableEq, Repr

/-- A half-open range of blocks {lit}`[startBlock, endBlock)`. -/
structure BlockRange where
  startBlock : Nat
  endBlock : Nat
deriving DecidableEq, Repr

namespace BlockRange

/-- Membership of a block in the range, {lit}`BlockRange::contains`. -/
def contains (r : BlockRange) (block : Nat) : Bool :=
  decide (block ≥ r.startBlock) && decide (block < r.endBlock)

/-- Non-emptiness of the range, {lit}`BlockRange::is_valid`. -/
def isValid (r : BlockRange) : Bool :=
  decide (r.endBlock > r.startBlock)

/-- A range contains exactly the blocks from its start up to before its end. -/
@[simp]
theorem contains_iff (r : BlockRange) (block : Nat) :
    r.contains block = true ↔ r.startBlock ≤ block ∧ block < r.endBlock := by
  simp [contains]

/-- A range is valid exactly when it is not empty. -/
@[simp]
theorem isValid_iff (r : BlockRange) : r.isValid = true ↔ r.startBlock < r.endBlock := by
  simp [isValid]

end BlockRange

namespace IngressPublicKeyRecord

variable {K : Type}

/-- Whether the view server needs to load this block with this key: the range
{lit}`[start_block, ∞)` for an active key, {lit}`[start_block, pubkey_expiry)`
for a retired key, and {lit}`[start_block, last_scanned_block]` for a lost key
(empty if nothing was scanned). -/
def coversBlockIndex (rec : IngressPublicKeyRecord K) (blockIndex : Nat) : Bool :=
  if rec.status.lost then
    decide (rec.status.startBlock ≤ blockIndex) &&
      (rec.lastScannedBlock.map fun idx => decide (blockIndex ≤ idx)).getD false
  else
    decide (rec.status.startBlock ≤ blockIndex) &&
      (!rec.status.retired || decide (blockIndex < rec.status.pubkeyExpiry))

/-- The next block index that needs to be scanned with this key, if the key is
still on the hook for it. -/
def nextNeededBlockIndex (rec : IngressPublicKeyRecord K) : Option Nat :=
  let candidate := (rec.lastScannedBlock.map fun x => x + 1).getD rec.status.startBlock
  if rec.coversBlockIndex candidate then some candidate else none

/-- The exclusive upper end of the covered interval, {lean}`none` meaning
unbounded. -/
def coverEnd (rec : IngressPublicKeyRecord K) : Option Nat :=
  if rec.status.lost then some ((rec.lastScannedBlock.map fun idx => idx + 1).getD 0)
  else if rec.status.retired then some rec.status.pubkeyExpiry
  else none

/-- Coverage is the interval from the start block up to the end marker. -/
theorem coversBlockIndex_iff (rec : IngressPublicKeyRecord K) (b : Nat) :
    rec.coversBlockIndex b = true ↔
      rec.status.startBlock ≤ b ∧ ∀ e, rec.coverEnd = some e → b < e := by
  unfold coversBlockIndex coverEnd
  by_cases hlost : rec.status.lost
  · cases hlast : rec.lastScannedBlock with
    | none => simp [hlost]
    | some idx =>
      simp only [hlost, if_true, Option.map_some, Option.getD_some, Bool.and_eq_true,
        decide_eq_true_eq, Option.some.injEq, forall_eq', Nat.lt_add_one_iff]
  · by_cases hret : rec.status.retired
    · simp [hlost, hret]
    · simp [hlost, hret]

/-- A covered index below another covered index, or at least the start block,
is covered: coverage has no holes. -/
theorem coversBlockIndex_of_le {rec : IngressPublicKeyRecord K} {b b' : Nat}
    (hcov : rec.coversBlockIndex b = true) (hstart : rec.status.startBlock ≤ b')
    (hle : b' ≤ b) : rec.coversBlockIndex b' = true := by
  rw [coversBlockIndex_iff] at hcov ⊢
  refine ⟨hstart, fun e he => ?_⟩
  exact Nat.lt_of_le_of_lt hle (hcov.2 e he)

/-- A covered index is at least the start block. -/
theorem startBlock_le_of_coversBlockIndex {rec : IngressPublicKeyRecord K} {b : Nat}
    (hcov : rec.coversBlockIndex b = true) : rec.status.startBlock ≤ b :=
  ((coversBlockIndex_iff rec b).1 hcov).1

end IngressPublicKeyRecord

end RecoveryDb
end Fog
