import Fog.Lib.SortedMap
import Fog.Lib.Run
import Fog.Lib.Except
import Mathlib.Data.List.AList

/-!
# The sample paykit's cached transaction data

{lit}`CachedTxData` of `fog/sample-paykit/src/cached_tx_data/mod.rs`: the txos
a client has found to be its own, stored by global index in an ordered map,
each with the status of its key image; the highest processed block count of the
fog view protocol's rng set; and the key image data completeness, the block
count up to which the client knows the spent status of its unspent txos.

The network is the environment.  A txo record carries the outcome of
view-key matching it with the account key (its value and key image, or the
matching error); a poll of fog view yields the block count the protocol
computed and the records it found; a key image check yields the ledger
server's response or a connection error.  The key image is a type parameter
with decidable equality.  Panics and failed assertions are the outer
{lean}`none`.  Block counts and indices are {lit}`u64`: the one addition on them,
the count after a txo's block, wraps at {lit}`2^64`, and so does the running
balance.  Log lines, the logger and the recovered {lit}`TxOut` are left out.

Main results:

- Theorem {lit}`CachedTxData.getBalance_isSome`: under the invariant neither
  the balance nor the unspent txos trip an assertion.
- Theorem {lit}`CachedTxData.pollFogForKeyImages_spec`: a key image response
  that answers each queried key image once is applied without a panic and
  never lowers the completeness.
- Theorem {lit}`CachedTxData.cachedTxData_keeps_balance_invariants`: the
  invariant holds along every run of well-formed calls, and calls whose records
  are at or past the rng count never lower {lit}`get_num_blocks`.
- Theorem {lit}`CachedTxData.getNumBlocks_drops_after_direct_consume`: a direct
  {lit}`consume_new_txo_records` of an older record lowers it, although the
  comment at its last line says the count does not get smaller.
-/

namespace Fog
namespace Paykit

open Run

/-- {lit}`BlockCount::MAX`, the largest {lit}`u64`. -/
def blockCountMax : Nat :=
  2 ^ 64 - 1

/-- {lit}`KeyImageStatus`: spent in a block, or not spent as of a block count. -/
inductive KeyImageStatus
  | spentAt (blockIndex : Nat)
  | notSpent (blockCount : Nat)
deriving DecidableEq, Repr

/-- {lit}`TxOutMatchingError`: why view-key matching a record failed. -/
inductive TxOutMatchingError
  | amount
  | key
  | fogTxOut
deriving DecidableEq, Repr

/-- A {lit}`TxOutRecord` as the paykit reads it: its global index and block, and
what view-key matching it with the account key recovers, the value and the key
image. -/
structure TxOutRecord (KI : Type) where
  txOutGlobalIndex : Nat
  blockIndex : Nat
  viewKeyMatch : Except TxOutMatchingError (Nat × KI)

/-- {lit}`OwnedTxOut`: a txo matched with the account key. -/
structure OwnedTxOut (KI : Type) where
  globalIndex : Nat
  blockIndex : Nat
  value : Nat
  keyImage : KI
  status : KeyImageStatus
deriving DecidableEq, Repr

/-- {lit}`OwnedTxOut::new`: a matched txo is not spent as of the count after its
block, since a txo cannot be spent in the block that creates it. -/
def OwnedTxOut.new {KI : Type} (rec : TxOutRecord KI) :
    Except TxOutMatchingError (OwnedTxOut KI) :=
  match rec.viewKeyMatch with
  | .error err => .error err
  | .ok (value, keyImage) =>
      .ok { globalIndex := rec.txOutGlobalIndex, blockIndex := rec.blockIndex, value,
            keyImage, status := .notSpent ((rec.blockIndex + 1) % 2 ^ 64) }

/-- {lit}`KeyImageQueryError`. -/
inductive KeyImageQueryError
  | keyImageError
  | unknownStatus (code : Nat)
deriving DecidableEq, Repr

/-- {lit}`KeyImageResult`: the answer for one key image. -/
structure KeyImageResult (KI : Type) where
  keyImage : KI
  spentAt : Nat
  keyImageResultCode : Nat

/-- {lit}`KeyImageResultExtension::status`: code 1 is spent at the reported
block, code 2 not spent, code 3 an error. -/
def KeyImageResult.status {KI : Type} (r : KeyImageResult KI) :
    Except KeyImageQueryError (Option Nat) :=
  if r.keyImageResultCode = 1 then .ok (some r.spentAt)
  else if r.keyImageResultCode = 2 then .ok none
  else if r.keyImageResultCode = 3 then .error .keyImageError
  else .error (.unknownStatus r.keyImageResultCode)

/-- {lit}`CheckKeyImagesResponse`. -/
structure CheckKeyImagesResponse (KI : Type) where
  numBlocks : Nat
  globalTxoCount : Nat
  results : List (KeyImageResult KI)

/-- The paykit error of a failed key image check,
{lit}`Error::LedgerConnection`. -/
inductive PaykitError
  | ledgerConnection
deriving DecidableEq, Repr

/-- The part of {lit}`CachedTxData` that its balance logic reads and writes;
of the rng set only its highest processed block count. -/
structure CachedTxData (KI : Type) where
  rngHighestProcessedBlockCount : Nat
  ownedTxOuts : SortedMap Nat (OwnedTxOut KI)
  keyImageDataCompleteness : Nat
  latestGlobalTxoCount : Nat

namespace CachedTxData

variable {KI : Type}

/-- {lit}`CachedTxData::new`: nothing owned, and a completeness of
{lit}`BlockCount::MAX`. -/
def new : CachedTxData KI :=
  ⟨0, .empty, blockCountMax, 0⟩

/-- {lit}`CachedTxData::get_num_blocks`: the block count up to which both the
txos and their spent status are known. -/
def getNumBlocks (d : CachedTxData KI) : Nat :=
  min d.rngHighestProcessedBlockCount d.keyImageDataCompleteness

/-! ## Balance and unspent txos -/

/-- The two assertions both filters make on a txo not spent as of a count: it
appeared before the count, and the count is at least the completeness. -/
def checkNotSpent (d : CachedTxData KI) (otxo : OwnedTxOut KI) (notSpentAsOf : Nat) :
    Option Bool :=
  if otxo.blockIndex < notSpentAsOf then
    if d.keyImageDataCompleteness ≤ notSpentAsOf then some true else none
  else none

/-- The filter of {lit}`get_unspent_txos` on one txo. -/
def unspentFilter (d : CachedTxData KI) (numBlocks : Nat) (otxo : OwnedTxOut KI) :
    Option Bool :=
  if otxo.blockIndex < numBlocks then
    match otxo.status with
    | .spentAt _ => some false
    | .notSpent notSpentAsOf => d.checkNotSpent otxo notSpentAsOf
  else some false

/-- {lit}`CachedTxData::get_unspent_txos`. -/
def getUnspentTxos (d : CachedTxData KI) : Option (List (OwnedTxOut KI)) :=
  let numBlocks := d.getNumBlocks
  if numBlocks ≤ d.keyImageDataCompleteness then
    d.ownedTxOuts.values.filterM (d.unspentFilter numBlocks)
  else none

/-- The filter of {lit}`get_balance` on one txo: a txo spent after the count
still counts. -/
def balanceFilter (d : CachedTxData KI) (numBlocks : Nat) (otxo : OwnedTxOut KI) :
    Option Bool :=
  if otxo.blockIndex < numBlocks then
    match otxo.status with
    | .spentAt spentAt =>
        if otxo.blockIndex < spentAt then some (decide (spentAt ≥ numBlocks)) else none
    | .notSpent notSpentAsOf => d.checkNotSpent otxo notSpentAsOf
  else some false

/-- {lit}`CachedTxData::get_balance`: the balance at the returned count. -/
def getBalance (d : CachedTxData KI) : Option (Nat × Nat) :=
  let numBlocks := d.getNumBlocks
  if d.keyImageDataCompleteness ≥ numBlocks then
    (d.ownedTxOuts.values.filterM (d.balanceFilter numBlocks)).map fun selected =>
      (selected.foldl (fun runningBalance otxo => (runningBalance + otxo.value) % 2 ^ 64) 0,
        numBlocks)
  else none

/-! ## The balance invariants -/

/-- A txo's status is sound for a completeness: a txo not spent as of a count
appeared before that count, which is at least the completeness; a spent txo was
spent after it appeared. -/
def StatusSound (completeness : Nat) (otxo : OwnedTxOut KI) : Prop :=
  (∀ c, otxo.status = .notSpent c → otxo.blockIndex < c ∧ completeness ≤ c) ∧
    ∀ s, otxo.status = .spentAt s → otxo.blockIndex < s

/-- A status sound for a completeness is sound for every smaller one. -/
theorem StatusSound.mono {k k' : Nat} {otxo : OwnedTxOut KI} (h : StatusSound k otxo)
    (hle : k' ≤ k) : StatusSound k' otxo := by
  refine ⟨fun c hc => ?_, h.2⟩
  obtain ⟨hlt, hk⟩ := h.1 c hc
  exact ⟨hlt, le_trans hle hk⟩

/-- The invariant of the cache: every txo is stored at its global index with a
status sound for the completeness, and the completeness is a {lit}`u64`. -/
structure Inv (d : CachedTxData KI) : Prop where
  stored : ∀ gi otxo, d.ownedTxOuts.get? gi = some otxo →
    otxo.globalIndex = gi ∧ StatusSound d.keyImageDataCompleteness otxo
  completeness_le : d.keyImageDataCompleteness ≤ blockCountMax

/-- Every txo iteration visits has a sound status. -/
theorem Inv.statusSound_of_mem {d : CachedTxData KI} (h : d.Inv) {otxo : OwnedTxOut KI}
    (hmem : otxo ∈ d.ownedTxOuts.values) : StatusSound d.keyImageDataCompleteness otxo := by
  obtain ⟨gi, hget⟩ := SortedMap.mem_values_iff.1 hmem
  exact (h.stored gi otxo hget).2

/-- A txo iteration visits is the one stored at its global index. -/
theorem Inv.get?_of_mem {d : CachedTxData KI} (h : d.Inv) {otxo : OwnedTxOut KI}
    (hmem : otxo ∈ d.ownedTxOuts.values) : d.ownedTxOuts.get? otxo.globalIndex = some otxo := by
  obtain ⟨gi, hget⟩ := SortedMap.mem_values_iff.1 hmem
  rw [(h.stored gi otxo hget).1]
  exact hget

/-- The new cache satisfies the invariant. -/
theorem inv_new : (new : CachedTxData KI).Inv :=
  ⟨fun gi otxo h => by simp [new] at h, le_refl _⟩

/-- {lit}`get_num_blocks` never passes the completeness of the key image data.
-/
theorem getNumBlocks_le_completeness (d : CachedTxData KI) :
    d.getNumBlocks ≤ d.keyImageDataCompleteness :=
  min_le_right _ _

/-- A txo not spent as of a count the data covers passes the check. -/
theorem checkNotSpent_of_statusSound {d : CachedTxData KI} {otxo : OwnedTxOut KI} {c : Nat}
    (h : StatusSound d.keyImageDataCompleteness otxo) (hc : otxo.status = .notSpent c) :
    d.checkNotSpent otxo c = some true := by
  obtain ⟨hlt, hle⟩ := h.1 c hc
  simp [checkNotSpent, hlt, hle]

/-- The filter of unspent txos reports no error on a txo of sound status. -/
theorem unspentFilter_isSome {d : CachedTxData KI} {otxo : OwnedTxOut KI}
    (h : StatusSound d.keyImageDataCompleteness otxo) (numBlocks : Nat) :
    (d.unspentFilter numBlocks otxo).isSome := by
  unfold unspentFilter
  split
  · cases hs : otxo.status with
    | spentAt s => rfl
    | notSpent c =>
        simp only
        rw [checkNotSpent_of_statusSound h hs]
        rfl
  · rfl

/-- The balance filter reports no error on a txo of sound status. -/
theorem balanceFilter_isSome {d : CachedTxData KI} {otxo : OwnedTxOut KI}
    (h : StatusSound d.keyImageDataCompleteness otxo) (numBlocks : Nat) :
    (d.balanceFilter numBlocks otxo).isSome := by
  unfold balanceFilter
  split
  · cases hs : otxo.status with
    | spentAt s =>
        simp only
        rw [if_pos (h.2 s hs)]
        rfl
    | notSpent c =>
        simp only
        rw [checkNotSpent_of_statusSound h hs]
        rfl
  · rfl

/-- Under the invariant, {lit}`get_unspent_txos` trips no assertion. -/
theorem getUnspentTxos_isSome {d : CachedTxData KI} (h : d.Inv) : d.getUnspentTxos.isSome := by
  unfold getUnspentTxos
  rw [if_pos (getNumBlocks_le_completeness d),
    List.filterM_eq_some fun otxo hmem => unspentFilter_isSome (h.statusSound_of_mem hmem) _]
  rfl

/-- Under the invariant, {lit}`get_balance` trips no assertion. -/
theorem getBalance_isSome {d : CachedTxData KI} (h : d.Inv) : d.getBalance.isSome := by
  unfold getBalance
  rw [if_pos (getNumBlocks_le_completeness d),
    List.filterM_eq_some fun otxo hmem => balanceFilter_isSome (h.statusSound_of_mem hmem) _]
  rfl

/-! ## Consuming records -/

/-- One record of {lit}`consume_new_txo_records`: a matched txo is stored at its
global index, replacing a txo seen before, and lowers the completeness to its
count; a record that fails to match is an error. -/
def consumeRecord (acc : List TxOutMatchingError × CachedTxData KI) (record : TxOutRecord KI) :
    Option (List TxOutMatchingError × CachedTxData KI) :=
  match OwnedTxOut.new record with
  | .ok otxo =>
      let d := { acc.2 with ownedTxOuts := acc.2.ownedTxOuts.insert otxo.globalIndex otxo }
      match otxo.status with
      | .spentAt _ => none
      | .notSpent asOf =>
          some (acc.1, { d with keyImageDataCompleteness := min d.keyImageDataCompleteness asOf })
  | .error err => some (acc.1 ++ [err], acc.2)

/-- {lit}`CachedTxData::consume_new_txo_records`: the matching errors and the new
state. -/
def consumeNewTxoRecords (d : CachedTxData KI) (records : List (TxOutRecord KI)) :
    Option (List TxOutMatchingError × CachedTxData KI) :=
  runSteps consumeRecord ([], d) records

/-- {lit}`CachedTxData::poll_fog_for_txos`: the view protocol raises the rng
set's count to the count it computed, never lowering it, and its records are
consumed. -/
def pollFogForTxos (d : CachedTxData KI) (highestProcessedBlockCount : Nat)
    (txoRecords : List (TxOutRecord KI)) : Option (CachedTxData KI) :=
  let d :=
    if highestProcessedBlockCount > d.rngHighestProcessedBlockCount then
      { d with rngHighestProcessedBlockCount := highestProcessedBlockCount }
    else d
  if txoRecords.isEmpty then some d
  else (d.consumeNewTxoRecords txoRecords).map Prod.snd

/-- Storing a txo not spent as of a count after its block, and lowering the
completeness to that count, keeps the invariant. -/
theorem Inv.insertNotSpent {d : CachedTxData KI} (h : d.Inv) (otxo : OwnedTxOut KI) {c : Nat}
    (hstatus : otxo.status = .notSpent c) (hlt : otxo.blockIndex < c) :
    ({ d with
        ownedTxOuts := d.ownedTxOuts.insert otxo.globalIndex otxo
        keyImageDataCompleteness := min d.keyImageDataCompleteness c } : CachedTxData KI).Inv := by
  refine ⟨fun gi o hget => ?_, le_trans (min_le_left _ _) h.completeness_le⟩
  rw [SortedMap.get?_insert] at hget
  by_cases hgi : gi = otxo.globalIndex
  · rw [if_pos hgi, Option.some.injEq] at hget
    subst hget
    refine ⟨hgi.symm, fun c' hc' => ?_, fun s hs => ?_⟩
    · rw [hstatus, KeyImageStatus.notSpent.injEq] at hc'
      subst hc'
      exact ⟨hlt, min_le_right _ _⟩
    · rw [hstatus] at hs
      cases hs
  · rw [if_neg hgi] at hget
    obtain ⟨hidx, hsound⟩ := h.stored gi o hget
    exact ⟨hidx, hsound.mono (min_le_left _ _)⟩

/-- A record below the largest block index never reaches the unreachable
branch: a matched txo is stored at its global index, not spent as of the count
after its block, and lowers the completeness to that count; a record that does
not match adds its error. -/
theorem consumeRecord_eq (acc : List TxOutMatchingError × CachedTxData KI)
    {record : TxOutRecord KI} (hb : record.blockIndex < blockCountMax) :
    consumeRecord acc record =
      some (match record.viewKeyMatch with
        | .error err => (acc.1 ++ [err], acc.2)
        | .ok (value, keyImage) =>
            (acc.1, { acc.2 with
              ownedTxOuts := acc.2.ownedTxOuts.insert record.txOutGlobalIndex
                ⟨record.txOutGlobalIndex, record.blockIndex, value, keyImage,
                  .notSpent (record.blockIndex + 1)⟩
              keyImageDataCompleteness :=
                min acc.2.keyImageDataCompleteness (record.blockIndex + 1) })) := by
  have hmod : (record.blockIndex + 1) % 2 ^ 64 = record.blockIndex + 1 := by
    apply Nat.mod_eq_of_lt
    unfold blockCountMax at hb
    omega
  unfold consumeRecord OwnedTxOut.new
  rcases hm : record.viewKeyMatch with err | ⟨value, keyImage⟩
  · rfl
  · simp only [hmod]

/-- Step lemma for consuming: a record below the largest block index is
consumed without a panic, keeps the invariant and the rng count, and leaves the
completeness at least the lower of the old one and the count after the
record's block. -/
theorem consumeRecord_spec {acc : List TxOutMatchingError × CachedTxData KI}
    (hinv : acc.2.Inv) {record : TxOutRecord KI} (hb : record.blockIndex < blockCountMax) :
    ∃ acc', consumeRecord acc record = some acc' ∧ acc'.2.Inv ∧
      acc'.2.rngHighestProcessedBlockCount = acc.2.rngHighestProcessedBlockCount ∧
      min acc.2.keyImageDataCompleteness (record.blockIndex + 1) ≤
        acc'.2.keyImageDataCompleteness := by
  rw [consumeRecord_eq acc hb]
  rcases record.viewKeyMatch with err | ⟨value, keyImage⟩
  · exact ⟨_, rfl, hinv, rfl, min_le_left _ _⟩
  · refine ⟨_, rfl, ?_, rfl, le_refl _⟩
    exact hinv.insertNotSpent ⟨record.txOutGlobalIndex, record.blockIndex, value,
      keyImage, .notSpent (record.blockIndex + 1)⟩ rfl (Nat.lt_succ_self _)

/-- Run lemma for consuming: records below the largest block index are consumed
without a panic, keeping the invariant and the rng count; if the count after
each record's block is at least {lean}`lower`, so is the new completeness or
the old one. -/
theorem consumeNewTxoRecords_spec {d : CachedTxData KI} (hinv : d.Inv)
    {records : List (TxOutRecord KI)} (lower : Nat)
    (hrecords : ∀ r ∈ records, r.blockIndex < blockCountMax ∧ lower ≤ r.blockIndex + 1) :
    ∃ errs d', d.consumeNewTxoRecords records = some (errs, d') ∧ d'.Inv ∧
      d'.rngHighestProcessedBlockCount = d.rngHighestProcessedBlockCount ∧
      min d.keyImageDataCompleteness lower ≤ d'.keyImageDataCompleteness := by
  let LoopInv : List TxOutMatchingError × CachedTxData KI → Prop := fun acc =>
    acc.2.Inv ∧ acc.2.rngHighestProcessedBlockCount = d.rngHighestProcessedBlockCount ∧
      min d.keyImageDataCompleteness lower ≤ acc.2.keyImageDataCompleteness
  have hstep : ∀ acc record, LoopInv acc →
      (record.blockIndex < blockCountMax ∧ lower ≤ record.blockIndex + 1) →
        ∃ acc', consumeRecord acc record = some acc' ∧ LoopInv acc' := by
    rintro acc record ⟨hacc, hrng, hlow⟩ ⟨hb, hlower⟩
    obtain ⟨acc', hone, hinv', hrng', hlow'⟩ := consumeRecord_spec hacc hb
    refine ⟨acc', hone, hinv', hrng'.trans hrng, ?_⟩
    have : min d.keyImageDataCompleteness lower ≤
        min acc.2.keyImageDataCompleteness (record.blockIndex + 1) := by omega
    exact le_trans this hlow'
  have hinit : LoopInv ([], d) := ⟨hinv, rfl, min_le_left _ _⟩
  obtain ⟨⟨errs, d'⟩, hrun, hinv', hrng', hlow'⟩ :=
    exists_runSteps_of_step hstep records hinit hrecords
  exact ⟨errs, d', hrun, hinv', hrng', hlow'⟩

/-- A poll of fog view with records below the largest block index completes,
keeps the invariant, never lowers the rng count, and leaves the completeness at
least the lower of the old one and the count after every record's block. -/
theorem pollFogForTxos_spec {d : CachedTxData KI} (hinv : d.Inv) (n : Nat)
    {records : List (TxOutRecord KI)} (lower : Nat)
    (hrecords : ∀ r ∈ records, r.blockIndex < blockCountMax ∧ lower ≤ r.blockIndex + 1) :
    ∃ d', d.pollFogForTxos n records = some d' ∧ d'.Inv ∧
      d.rngHighestProcessedBlockCount ≤ d'.rngHighestProcessedBlockCount ∧
      min d.keyImageDataCompleteness lower ≤ d'.keyImageDataCompleteness := by
  let d₁ : CachedTxData KI :=
    if n > d.rngHighestProcessedBlockCount then { d with rngHighestProcessedBlockCount := n }
    else d
  have hd₁ : d₁.Inv ∧ d.rngHighestProcessedBlockCount ≤ d₁.rngHighestProcessedBlockCount ∧
      d₁.keyImageDataCompleteness = d.keyImageDataCompleteness := by
    by_cases hn : n > d.rngHighestProcessedBlockCount
    · have hraise : d₁ = { d with rngHighestProcessedBlockCount := n } := if_pos hn
      rw [hraise]
      exact ⟨⟨hinv.stored, hinv.completeness_le⟩, le_of_lt hn, rfl⟩
    · have hkeep : d₁ = d := if_neg hn
      rw [hkeep]
      exact ⟨hinv, le_refl _, rfl⟩
  obtain ⟨hinv₁, hrng₁, hk₁⟩ := hd₁
  unfold pollFogForTxos
  by_cases hempty : records.isEmpty
  · rw [if_pos hempty]
    exact ⟨d₁, rfl, hinv₁, hrng₁, hk₁ ▸ min_le_left _ _⟩
  · rw [if_neg hempty]
    obtain ⟨errs, d', hrun, hinv', hrng', hlow'⟩ := consumeNewTxoRecords_spec hinv₁ lower hrecords
    refine ⟨d', ?_, hinv', hrng₁.trans hrng'.ge, hk₁ ▸ hlow'⟩
    change (d₁.consumeNewTxoRecords records).map Prod.snd = some d'
    rw [hrun]
    rfl

/-! ## Polling key images -/

variable [DecidableEq KI]

/-- One txo of the key image query: a txo not known to be spent is indexed by
its key image (a later txo with the same key image takes the index over), and
its key image is queried the first time it is seen. -/
def indexKeyImage (acc : AList (fun _ : KI => Nat) × List KI) (otxo : OwnedTxOut KI) :
    AList (fun _ : KI => Nat) × List KI :=
  match otxo.status with
  | .notSpent _ =>
      let index := acc.1.insert otxo.keyImage otxo.globalIndex
      match acc.1.lookup otxo.keyImage with
      | some _ => (index, acc.2)
      | none => (index, acc.2 ++ [otxo.keyImage])
  | .spentAt _ => acc

/-- The map {lit}`key_image_to_global_index` and the queried key images. -/
def keyImageQuery (d : CachedTxData KI) : AList (fun _ : KI => Nat) × List KI :=
  d.ownedTxOuts.values.foldl indexKeyImage (∅, [])

/-- One result of the response: the txo its key image indexes becomes spent at
the reported block, or not spent as of the response's count if that is later;
an error or a key image not asked about changes nothing. -/
def applyKeyImageResult (index : AList (fun _ : KI => Nat)) (numBlocks : Nat)
    (owned : SortedMap Nat (OwnedTxOut KI)) (result : KeyImageResult KI) :
    Option (SortedMap Nat (OwnedTxOut KI)) :=
  match index.lookup result.keyImage with
  | none => some owned
  | some globalIndex =>
      match owned.get? globalIndex with
      | none => none
      | some otxo =>
          match result.status with
          | .error _ => some owned
          | .ok (some spentAt) =>
              match otxo.status with
              | .spentAt _ => none
              | .notSpent _ =>
                  some (owned.insert globalIndex { otxo with status := .spentAt spentAt })
          | .ok none =>
              match otxo.status with
              | .spentAt _ => none
              | .notSpent notSpentAsOf =>
                  some (owned.insert globalIndex
                    { otxo with status := .notSpent (max notSpentAsOf numBlocks) })

/-- One txo of the completeness recomputation: the running minimum, lowered to
the count as of which the txo is known not to be spent. -/
def notSpentMin (prevMin : Nat) (otxo : OwnedTxOut KI) : Nat :=
  match otxo.status with
  | .spentAt _ => prevMin
  | .notSpent notSpentAsOf => min prevMin notSpentAsOf

/-- The earliest count as of which a txo is known not to be spent, over the txos
not known to be spent; {lit}`BlockCount::MAX` if there is none. -/
def earliestNotSpentAsOf (owned : SortedMap Nat (OwnedTxOut KI)) : Nat :=
  owned.values.foldl notSpentMin blockCountMax

/-- {lit}`CachedTxData::poll_fog_for_key_images`: apply the results in order and
recompute the completeness; a failed check changes nothing. -/
def pollFogForKeyImages (d : CachedTxData KI) (response : Except Unit (CheckKeyImagesResponse KI)) :
    Option (Except PaykitError (CachedTxData KI)) :=
  match response with
  | .error _ => some (.error .ledgerConnection)
  | .ok response =>
      (runSteps (applyKeyImageResult d.keyImageQuery.1 response.numBlocks) d.ownedTxOuts
          response.results).map fun owned =>
        .ok { d with
          latestGlobalTxoCount := max d.latestGlobalTxoCount response.globalTxoCount
          ownedTxOuts := owned
          keyImageDataCompleteness := earliestNotSpentAsOf owned }

/-! ## The completeness recomputation -/

omit [DecidableEq KI] in
/-- The completeness recomputed never passes its starting value. -/
theorem foldl_notSpentMin_le_init :
    ∀ (l : List (OwnedTxOut KI)) (init : Nat), l.foldl notSpentMin init ≤ init
  | [], _ => le_refl _
  | otxo :: l, init => by
      rw [List.foldl_cons]
      refine le_trans (foldl_notSpentMin_le_init l _) ?_
      unfold notSpentMin
      split
      · exact le_refl _
      · exact min_le_left _ _

omit [DecidableEq KI] in
/-- The recomputed completeness is at most every count of a txo not known to
be spent. -/
theorem foldl_notSpentMin_le :
    ∀ (l : List (OwnedTxOut KI)) (init : Nat), ∀ otxo ∈ l, ∀ c, otxo.status = .notSpent c →
      l.foldl notSpentMin init ≤ c
  | [], _, _, hmem, _, _ => absurd hmem List.not_mem_nil
  | otxo :: l, init, o, hmem, c, hc => by
      rw [List.foldl_cons]
      rcases List.mem_cons.1 hmem with rfl | hmem'
      · refine le_trans (foldl_notSpentMin_le_init l _) ?_
        unfold notSpentMin
        rw [hc]
        exact min_le_right _ _
      · exact foldl_notSpentMin_le l _ o hmem' c hc

omit [DecidableEq KI] in
/-- A bound below the start and below every count of a txo not known to be
spent is below the recomputed completeness. -/
theorem le_foldl_notSpentMin {b : Nat} :
    ∀ (l : List (OwnedTxOut KI)) (init : Nat), b ≤ init →
      (∀ otxo ∈ l, ∀ c, otxo.status = .notSpent c → b ≤ c) → b ≤ l.foldl notSpentMin init
  | [], _, hinit, _ => hinit
  | otxo :: l, init, hinit, hall => by
      rw [List.foldl_cons]
      apply le_foldl_notSpentMin l _ _ fun o ho c hc => hall o (List.mem_cons_of_mem _ ho) c hc
      unfold notSpentMin
      cases hs : otxo.status with
      | spentAt _ => exact hinit
      | notSpent c => exact le_min hinit (hall otxo List.mem_cons_self c hs)

/-! ## The key image query -/

/-- What the key image query keeps true of the txos of a list: every indexed
key image names a txo of the list not known to be spent, with that key image
and global index, and every indexed key image is queried. -/
def IndexSound (L : List (OwnedTxOut KI)) (acc : AList (fun _ : KI => Nat) × List KI) : Prop :=
  (∀ ki gi, acc.1.lookup ki = some gi → ∃ otxo ∈ L, otxo.keyImage = ki ∧
      otxo.globalIndex = gi ∧ ∃ c, otxo.status = .notSpent c) ∧
    ∀ ki, (acc.1.lookup ki).isSome → ki ∈ acc.2

/-- Step lemma of the query: indexing a txo of the list keeps it sound. -/
theorem IndexSound.step {L : List (OwnedTxOut KI)} {acc : AList (fun _ : KI => Nat) × List KI}
    (h : IndexSound L acc) {otxo : OwnedTxOut KI} (hmem : otxo ∈ L) :
    IndexSound L (indexKeyImage acc otxo) := by
  unfold CachedTxData.indexKeyImage
  cases hs : otxo.status with
  | spentAt _ => exact h
  | notSpent c =>
      have hnamed : ∀ ki gi, (acc.1.insert otxo.keyImage otxo.globalIndex).lookup ki = some gi →
          ∃ o ∈ L, o.keyImage = ki ∧ o.globalIndex = gi ∧ ∃ c, o.status = .notSpent c := by
        intro ki gi hk
        by_cases hki : ki = otxo.keyImage
        · subst hki
          rw [AList.lookup_insert, Option.some.injEq] at hk
          exact ⟨otxo, hmem, rfl, hk, c, hs⟩
        · rw [AList.lookup_insert_ne hki] at hk
          exact h.1 ki gi hk
      cases hprev : acc.1.lookup otxo.keyImage with
      | some prev =>
          refine ⟨hnamed, fun ki hki => ?_⟩
          by_cases hk : ki = otxo.keyImage
          · subst hk
            exact h.2 _ (by rw [hprev]; rfl)
          · rw [AList.lookup_insert_ne hk] at hki
            exact h.2 ki hki
      | none =>
          refine ⟨hnamed, fun ki hki => ?_⟩
          by_cases hk : ki = otxo.keyImage
          · subst hk
            exact List.mem_append_right _ (List.mem_singleton_self _)
          · rw [AList.lookup_insert_ne hk] at hki
            exact List.mem_append_left _ (h.2 ki hki)

/-- Run lemma of the query: indexing the txos of a sublist keeps the index
sound. -/
theorem IndexSound.foldl {L : List (OwnedTxOut KI)} :
    ∀ (l : List (OwnedTxOut KI)) (acc : AList (fun _ : KI => Nat) × List KI),
      (∀ otxo ∈ l, otxo ∈ L) → IndexSound L acc → IndexSound L (l.foldl indexKeyImage acc)
  | [], _, _, h => h
  | otxo :: l, acc, hsub, h => by
      rw [List.foldl_cons]
      exact IndexSound.foldl l _ (fun o ho => hsub o (List.mem_cons_of_mem _ ho))
        (h.step (hsub otxo List.mem_cons_self))

/-- The key image query indexes only txos of the cache, each at its global
index, with its key image and not known to be spent. -/
theorem indexSound_keyImageQuery (d : CachedTxData KI) :
    IndexSound d.ownedTxOuts.values d.keyImageQuery := by
  unfold keyImageQuery
  apply IndexSound.foldl _ _ fun _ h => h
  constructor
  · intro ki gi h
    simp at h
  · intro ki h
    simp at h

/-- Every key image the query indexes names the txo stored at its index, which
has that key image and is not known to be spent. -/
theorem Inv.get?_of_lookup {d : CachedTxData KI} (h : d.Inv) {ki : KI} {gi : Nat}
    (hk : d.keyImageQuery.1.lookup ki = some gi) :
    ∃ otxo, d.ownedTxOuts.get? gi = some otxo ∧ otxo.keyImage = ki ∧
      ∃ c, otxo.status = .notSpent c := by
  obtain ⟨otxo, hmem, hki, hgi, hs⟩ := (indexSound_keyImageQuery d).1 ki gi hk
  refine ⟨otxo, ?_, hki, hs⟩
  rw [← hgi]
  exact h.get?_of_mem hmem

/-- Two key images indexing the same txo are the same key image. -/
theorem Inv.eq_of_lookup {d : CachedTxData KI} (h : d.Inv) {ki ki' : KI} {gi : Nat}
    (hk : d.keyImageQuery.1.lookup ki = some gi) (hk' : d.keyImageQuery.1.lookup ki' = some gi) :
    ki = ki' := by
  obtain ⟨otxo, hget, hki, -⟩ := h.get?_of_lookup hk
  obtain ⟨otxo', hget', hki', -⟩ := h.get?_of_lookup hk'
  rw [hget, Option.some.injEq] at hget'
  rw [← hki, ← hki', hget']

/-! ## The results loop -/

/-- What holds along the results loop of a key image poll from {lean}`d`,
before the results {lean}`rest`: every txo is the one stored there before the
poll with at most its status changed, its status is sound for the completeness
before the poll, and the txo that each key image still to come indexes is not
known to be spent. -/
structure ResultsInv (d : CachedTxData KI) (owned : SortedMap Nat (OwnedTxOut KI))
    (rest : List (KeyImageResult KI)) : Prop where
  frame : ∀ gi otxo, owned.get? gi = some otxo →
    ∃ otxo₀, d.ownedTxOuts.get? gi = some otxo₀ ∧ otxo = { otxo₀ with status := otxo.status }
  sound : ∀ gi otxo, owned.get? gi = some otxo → StatusSound d.keyImageDataCompleteness otxo
  pending : ∀ r ∈ rest, ∀ gi, d.keyImageQuery.1.lookup r.keyImage = some gi →
    ∃ otxo c, owned.get? gi = some otxo ∧ otxo.status = .notSpent c

/-- The loop invariant holds before the first result. -/
theorem Inv.resultsInv {d : CachedTxData KI} (h : d.Inv) (results : List (KeyImageResult KI)) :
    ResultsInv d d.ownedTxOuts results := by
  refine ⟨fun gi otxo hget => ⟨otxo, hget, rfl⟩, fun gi otxo hget => (h.stored gi otxo hget).2,
    fun r _ gi hk => ?_⟩
  obtain ⟨otxo, hget, -, c, hc⟩ := h.get?_of_lookup hk
  exact ⟨otxo, c, hget, hc⟩

/-- The loop invariant holds of fewer results still to come. -/
theorem ResultsInv.tail {d : CachedTxData KI} {owned : SortedMap Nat (OwnedTxOut KI)}
    {r : KeyImageResult KI} {rest : List (KeyImageResult KI)} (h : ResultsInv d owned (r :: rest)) :
    ResultsInv d owned rest :=
  ⟨h.frame, h.sound, fun r' hr' => h.pending r' (List.mem_cons_of_mem _ hr')⟩

/-- Setting the status of a stored txo keeps the loop invariant when the new
status is sound and, if a later result indexes the txo, not spent. -/
theorem ResultsInv.setStatus {d : CachedTxData KI} {owned : SortedMap Nat (OwnedTxOut KI)}
    {r : KeyImageResult KI} {rest : List (KeyImageResult KI)} (h : ResultsInv d owned (r :: rest))
    {gi : Nat} {otxo : OwnedTxOut KI} (hget : owned.get? gi = some otxo) (status : KeyImageStatus)
    (hsound : StatusSound d.keyImageDataCompleteness { otxo with status := status })
    (hlater : ∀ r' ∈ rest, d.keyImageQuery.1.lookup r'.keyImage = some gi →
      ∃ c, status = .notSpent c) :
    ResultsInv d (owned.insert gi { otxo with status := status }) rest := by
  refine ⟨fun gi' o hget' => ?_, fun gi' o hget' => ?_, fun r' hr' gi' hk => ?_⟩
  · rw [SortedMap.get?_insert] at hget'
    by_cases hgi : gi' = gi
    · rw [if_pos hgi, Option.some.injEq] at hget'
      subst hget' hgi
      obtain ⟨otxo₀, hget₀, hframe⟩ := h.frame gi' otxo hget
      refine ⟨otxo₀, hget₀, ?_⟩
      rw [hframe]
    · rw [if_neg hgi] at hget'
      exact h.frame gi' o hget'
  · rw [SortedMap.get?_insert] at hget'
    by_cases hgi : gi' = gi
    · rw [if_pos hgi, Option.some.injEq] at hget'
      rw [← hget']
      exact hsound
    · rw [if_neg hgi] at hget'
      exact h.sound gi' o hget'
  · by_cases hgi : gi' = gi
    · subst hgi
      obtain ⟨c, hc⟩ := hlater r' hr' hk
      exact ⟨_, c, SortedMap.get?_insert_self _ _ _, hc⟩
    · obtain ⟨o, c, hget', hc⟩ := h.pending r' (List.mem_cons_of_mem _ hr') gi' hk
      refine ⟨o, c, ?_, hc⟩
      rw [SortedMap.get?_insert_of_ne _ _ hgi]
      exact hget'

/-- Step lemma of the results loop: a result whose key image no later result
answers, and whose reported spend is after the block of the txos with that key
image, updates the txo its key image indexes without a panic. -/
theorem ResultsInv.applyKeyImageResult_spec {d : CachedTxData KI} (hinv : d.Inv)
    {owned : SortedMap Nat (OwnedTxOut KI)} {r : KeyImageResult KI}
    {rest : List (KeyImageResult KI)} (h : ResultsInv d owned (r :: rest))
    (hfirst : ∀ r' ∈ rest, r.keyImage ∈ d.keyImageQuery.2 → r.keyImage ≠ r'.keyImage)
    (hspent : ∀ s, r.status = .ok (some s) → ∀ otxo ∈ d.ownedTxOuts.values,
      otxo.keyImage = r.keyImage → otxo.blockIndex < s)
    (numBlocks : Nat) :
    ∃ owned', applyKeyImageResult d.keyImageQuery.1 numBlocks owned r = some owned' ∧
      ResultsInv d owned' rest := by
  unfold applyKeyImageResult
  cases hk : d.keyImageQuery.1.lookup r.keyImage with
  | none => exact ⟨owned, rfl, h.tail⟩
  | some gi =>
      obtain ⟨otxo, c, hget, hc⟩ := h.pending r List.mem_cons_self gi hk
      have ⟨hlt, hle⟩ := (h.sound gi otxo hget).1 c hc
      simp only [hget]
      cases hst : r.status with
      | error e => exact ⟨owned, rfl, h.tail⟩
      | ok answer =>
          cases answer with
          | some s =>
              simp only [hc]
              refine ⟨_, rfl, h.setStatus hget _ ?_ ?_⟩
              · obtain ⟨otxo₀, hget₀, hframe⟩ := h.frame gi otxo hget
                obtain ⟨o, ho, hki, -⟩ := hinv.get?_of_lookup hk
                rw [hget₀, Option.some.injEq] at ho
                subst ho
                have hbefore := hspent s hst otxo₀ (SortedMap.mem_values_iff.2 ⟨gi, hget₀⟩) hki
                refine ⟨fun c' hc' => (by cases hc'), fun s' hs' => ?_⟩
                cases hs'
                rw [hframe]
                exact hbefore
              · intro r' hr' hk'
                have hqueried : r.keyImage ∈ d.keyImageQuery.2 :=
                  (indexSound_keyImageQuery d).2 _ (by rw [hk]; rfl)
                exact absurd (hinv.eq_of_lookup hk hk') (hfirst r' hr' hqueried)
          | none =>
              simp only [hc]
              refine ⟨_, rfl, h.setStatus hget _ ?_ fun _ _ _ => ⟨_, rfl⟩⟩
              refine ⟨fun c' hc' => ?_, fun s' hs' => by cases hs'⟩
              cases hc'
              exact ⟨lt_of_lt_of_le hlt (le_max_left _ _), le_trans hle (le_max_left _ _)⟩

/-- Run lemma of the results loop: results that answer each queried key image
at most once, with spends after the blocks of their txos, are applied without
a panic. -/
theorem ResultsInv.run {d : CachedTxData KI} (hinv : d.Inv) (numBlocks : Nat) :
    ∀ (results : List (KeyImageResult KI)) (owned : SortedMap Nat (OwnedTxOut KI)),
      ResultsInv d owned results →
      results.Pairwise (fun r r' => r.keyImage ∈ d.keyImageQuery.2 → r.keyImage ≠ r'.keyImage) →
      (∀ r ∈ results, ∀ s, r.status = .ok (some s) → ∀ otxo ∈ d.ownedTxOuts.values,
        otxo.keyImage = r.keyImage → otxo.blockIndex < s) →
      ∃ owned', runSteps (applyKeyImageResult d.keyImageQuery.1 numBlocks) owned results =
        some owned' ∧ ResultsInv d owned' []
  | [], owned, h, _, _ => ⟨owned, rfl, h⟩
  | r :: rest, owned, h, hpair, hspent => by
      obtain ⟨hfirst, hrest⟩ := List.pairwise_cons.1 hpair
      obtain ⟨owned₁, hone, h₁⟩ :=
        h.applyKeyImageResult_spec hinv hfirst (hspent r List.mem_cons_self) numBlocks
      obtain ⟨owned', hrun, h'⟩ := ResultsInv.run hinv numBlocks rest owned₁ h₁ hrest
        fun r' hr' => hspent r' (List.mem_cons_of_mem _ hr')
      refine ⟨owned', ?_, h'⟩
      rw [runSteps_cons, hone]
      exact hrun

/-- A key image response sound for the cache: it answers each queried key image
at most once, and every spend it reports is after the block of the txos with
that key image. -/
def ResponseSound (d : CachedTxData KI) (response : CheckKeyImagesResponse KI) : Prop :=
  response.results.Pairwise
      (fun r r' => r.keyImage ∈ d.keyImageQuery.2 → r.keyImage ≠ r'.keyImage) ∧
    ∀ r ∈ response.results, ∀ s, r.status = .ok (some s) → ∀ otxo ∈ d.ownedTxOuts.values,
      otxo.keyImage = r.keyImage → otxo.blockIndex < s

/-- A sound key image response is applied without a panic, keeps the invariant
and the rng count, and never lowers the completeness. -/
theorem pollFogForKeyImages_spec {d : CachedTxData KI} (hinv : d.Inv)
    {response : CheckKeyImagesResponse KI} (hsound : d.ResponseSound response) :
    ∃ d', d.pollFogForKeyImages (.ok response) = some (.ok d') ∧ d'.Inv ∧
      d'.rngHighestProcessedBlockCount = d.rngHighestProcessedBlockCount ∧
      d.keyImageDataCompleteness ≤ d'.keyImageDataCompleteness := by
  obtain ⟨owned, hrun, hres⟩ := ResultsInv.run hinv response.numBlocks response.results
    d.ownedTxOuts (hinv.resultsInv _) hsound.1 hsound.2
  refine ⟨{ d with
      latestGlobalTxoCount := max d.latestGlobalTxoCount response.globalTxoCount
      ownedTxOuts := owned
      keyImageDataCompleteness := earliestNotSpentAsOf owned }, ?_, ⟨?_, ?_⟩, rfl, ?_⟩
  · unfold pollFogForKeyImages
    simp only [hrun, Option.map_some]
  · intro gi otxo hget
    obtain ⟨otxo₀, hget₀, hframe⟩ := hres.frame gi otxo hget
    have hidx : otxo.globalIndex = gi := by
      rw [hframe]
      exact (hinv.stored gi otxo₀ hget₀).1
    have hmem : otxo ∈ owned.values := SortedMap.mem_values_iff.2 ⟨gi, hget⟩
    refine ⟨hidx, fun c hc => ⟨((hres.sound gi otxo hget).1 c hc).1, ?_⟩, (hres.sound gi otxo hget).2⟩
    exact foldl_notSpentMin_le _ _ otxo hmem c hc
  · exact foldl_notSpentMin_le_init _ _
  · apply le_foldl_notSpentMin _ _ hinv.completeness_le
    intro otxo hmem c hc
    obtain ⟨gi, hget⟩ := SortedMap.mem_values_iff.1 hmem
    exact ((hres.sound gi otxo hget).1 c hc).2

end CachedTxData

/-- One call a client makes on its cache. -/
inductive CacheCall (KI : Type)
  | consumeNewTxoRecords (records : List (TxOutRecord KI))
  | pollFogForTxos (highestProcessedBlockCount : Nat) (txoRecords : List (TxOutRecord KI))
  | pollFogForKeyImages (response : Except Unit (CheckKeyImagesResponse KI))

namespace CachedTxData

variable {KI : Type} [DecidableEq KI]

/-! ## Runs of calls -/

/-- The state after a call; {lean}`none` only on a panic.  A failed key image
check returns before it changes anything. -/
def call (d : CachedTxData KI) : CacheCall KI → Option (CachedTxData KI)
  | .consumeNewTxoRecords records => (d.consumeNewTxoRecords records).map Prod.snd
  | .pollFogForTxos n records => d.pollFogForTxos n records
  | .pollFogForKeyImages response =>
      (d.pollFogForKeyImages response).map fun result =>
        match result with
        | .ok d' => d'
        | .error _ => d

/-- The calls the balance invariants rely on: records below the largest block
index, and key image responses sound for the cache. -/
def Allowed (d : CachedTxData KI) : CacheCall KI → Prop
  | .consumeNewTxoRecords records => ∀ r ∈ records, r.blockIndex < blockCountMax
  | .pollFogForTxos _ records => ∀ r ∈ records, r.blockIndex < blockCountMax
  | .pollFogForKeyImages (.ok response) => d.ResponseSound response
  | .pollFogForKeyImages (.error _) => True

/-- The calls along which the count only rises: every record consumed, by
{lit}`consume_new_txo_records` or by {lit}`poll_fog_for_txos`, is at or past the
rng set's count before the call, and key image responses are sound. -/
def ForwardAllowed (d : CachedTxData KI) : CacheCall KI → Prop
  | .consumeNewTxoRecords records =>
      ∀ r ∈ records, r.blockIndex < blockCountMax ∧ d.rngHighestProcessedBlockCount ≤ r.blockIndex
  | .pollFogForTxos _ records =>
      ∀ r ∈ records, r.blockIndex < blockCountMax ∧ d.rngHighestProcessedBlockCount ≤ r.blockIndex
  | .pollFogForKeyImages response => d.Allowed (.pollFogForKeyImages response)

/-- A call allowed going forward is allowed. -/
theorem ForwardAllowed.allowed {d : CachedTxData KI} {c : CacheCall KI} (h : d.ForwardAllowed c) :
    d.Allowed c := by
  cases c with
  | consumeNewTxoRecords records => exact fun r hr => (h r hr).1
  | pollFogForTxos n records => exact fun r hr => (h r hr).1
  | pollFogForKeyImages response => exact h

/-- Step lemma: every allowed call from an invariant state completes and keeps
the invariant. -/
theorem call_spec {d : CachedTxData KI} (hinv : d.Inv) {c : CacheCall KI} (hc : d.Allowed c) :
    ∃ d', d.call c = some d' ∧ d'.Inv := by
  cases c with
  | consumeNewTxoRecords records =>
      obtain ⟨errs, d', hrun, hinv', -⟩ :=
        consumeNewTxoRecords_spec hinv 0 fun r hr => ⟨hc r hr, Nat.zero_le _⟩
      refine ⟨d', ?_, hinv'⟩
      simp only [call, hrun, Option.map_some]
  | pollFogForTxos n records =>
      obtain ⟨d', hpoll, hinv', -⟩ :=
        pollFogForTxos_spec hinv n 0 fun r hr => ⟨hc r hr, Nat.zero_le _⟩
      exact ⟨d', hpoll, hinv'⟩
  | pollFogForKeyImages response =>
      cases response with
      | error e => exact ⟨d, rfl, hinv⟩
      | ok response =>
          obtain ⟨d', hpoll, hinv', -⟩ := pollFogForKeyImages_spec hinv hc
          refine ⟨d', ?_, hinv'⟩
          simp only [call, hpoll, Option.map_some]

/-- Every allowed call from an invariant state keeps the invariant. -/
theorem call_preserves {d d' : CachedTxData KI} (hinv : d.Inv) {c : CacheCall KI}
    (hc : d.Allowed c) (h : d.call c = some d') : d'.Inv := by
  obtain ⟨d'', hcall, hinv''⟩ := call_spec hinv hc
  rw [hcall, Option.some.injEq] at h
  exact h ▸ hinv''

/-- Step lemma for balance checks: a call whose records are at or past the rng
count never lowers {lit}`get_num_blocks`. -/
theorem getNumBlocks_le_of_call {d d' : CachedTxData KI} (hinv : d.Inv) {c : CacheCall KI}
    (hc : d.ForwardAllowed c) (h : d.call c = some d') :
    d'.Inv ∧ d.getNumBlocks ≤ d'.getNumBlocks := by
  refine ⟨call_preserves hinv hc.allowed h, ?_⟩
  unfold getNumBlocks
  cases c with
  | consumeNewTxoRecords records =>
      obtain ⟨errs, d'', hrun, -, hrng, hlow⟩ := consumeNewTxoRecords_spec hinv
        (d.rngHighestProcessedBlockCount + 1) fun r hr => ⟨(hc r hr).1, Nat.succ_le_succ (hc r hr).2⟩
      have hd : d'' = d' := by
        simp only [call, hrun, Option.map_some, Option.some.injEq] at h
        exact h
      subst hd
      omega
  | pollFogForTxos n records =>
      obtain ⟨d'', hpoll, -, hrng, hlow⟩ := pollFogForTxos_spec hinv n
        (d.rngHighestProcessedBlockCount + 1) fun r hr => ⟨(hc r hr).1, Nat.succ_le_succ (hc r hr).2⟩
      have hd : d'' = d' := by
        change d.pollFogForTxos n records = some d' at h
        rw [hpoll, Option.some.injEq] at h
        exact h
      subst hd
      omega
  | pollFogForKeyImages response =>
      cases response with
      | error e =>
          cases h
          exact le_refl _
      | ok response =>
          obtain ⟨d'', hpoll, -, hrng, hle⟩ := pollFogForKeyImages_spec hinv hc
          have hd : d'' = d' := by
            simp only [call, hpoll, Option.map_some, Option.some.injEq] at h
            exact h
          subst hd
          omega

/-- The balance invariants of the cache: along every run of calls with records
below the largest block index and key image responses that answer each queried
key image at most once with spends after the blocks of their txos, every txo
not spent as of a count appeared before it and the count is at least the
completeness, so neither {lit}`get_balance` nor {lit}`get_unspent_txos` trips
an assertion, and no allowed call panics; and from any such state, along calls
whose records, consumed directly or by a poll, are at or past the rng count
before the call, {lit}`get_num_blocks` never decreases. -/
theorem cachedTxData_keeps_balance_invariants :
    (∀ d : CachedTxData KI, Relation.ReflTransGen (AdmissibleStep call Allowed) new d →
      (∀ otxo ∈ d.ownedTxOuts.values, ∀ c, otxo.status = .notSpent c →
          otxo.blockIndex < c ∧ d.keyImageDataCompleteness ≤ c) ∧
        d.getBalance.isSome ∧ d.getUnspentTxos.isSome ∧
        ∀ c, d.Allowed c → (d.call c).isSome) ∧
    ∀ d d' : CachedTxData KI, Relation.ReflTransGen (AdmissibleStep call Allowed) new d →
      Relation.ReflTransGen (AdmissibleStep call ForwardAllowed) d d' →
        d.getNumBlocks ≤ d'.getNumBlocks := by
  have hreach : ∀ d : CachedTxData KI,
      Relation.ReflTransGen (AdmissibleStep call Allowed) new d → d.Inv :=
    fun d h => invariant_reflTransGen (fun _ _ _ hs hc hstep => call_preserves hs hc hstep) inv_new h
  refine ⟨fun d h => ?_, fun d d' h hcalls => ?_⟩
  · have hinv := hreach d h
    refine ⟨fun otxo hmem c hc => (hinv.statusSound_of_mem hmem).1 c hc, getBalance_isSome hinv,
      getUnspentTxos_isSome hinv, fun c hc => ?_⟩
    obtain ⟨d', hcall, -⟩ := call_spec hinv hc
    rw [hcall]
    rfl
  · have hstep : ∀ (s : CachedTxData KI) (c : CacheCall KI) (s' : CachedTxData KI),
        s.Inv → s.ForwardAllowed c → s.call c = some s' →
          s'.Inv ∧ s.getNumBlocks ≤ s'.getNumBlocks :=
      fun _ _ _ hs hc hcall => getNumBlocks_le_of_call hs hc hcall
    exact rel_reflTransGen (R := fun d d' => d.getNumBlocks ≤ d'.getNumBlocks)
      (fun _ => le_refl _) (fun _ _ _ h₁₂ h₂₃ => le_trans h₁₂ h₂₃) hstep (hreach d h) hcalls

/-- The key image response of the examples: key image 1 not spent as of count
6. -/
def notSpentResponse : CheckKeyImagesResponse Nat :=
  ⟨6, 20, [⟨1, 0, 2⟩]⟩

/-- The example response is sound for every cache: it answers one key image
once, as not spent. -/
theorem responseSound_notSpentResponse (d : CachedTxData Nat) : d.ResponseSound notSpentResponse := by
  refine ⟨by simp [notSpentResponse], ?_⟩
  intro r hr s hs
  simp only [notSpentResponse, List.mem_singleton] at hr
  subst hr
  simp [KeyImageResult.status] at hs

/-- A client polls fog view (a txo of value 10 matched in block 3, so the
completeness drops to 4), then its key images (not spent as of count 6), then
consumes a record of block 7 directly: the balance check is complete, and
{lit}`get_num_blocks` rises from 4 to 5. -/
theorem cachedTxData_keeps_balance_invariants_pollsThenConsume :
    ∃ d₁ d₃ : CachedTxData Nat,
      Relation.ReflTransGen (AdmissibleStep call Allowed) new d₁ ∧
      Relation.ReflTransGen (AdmissibleStep call ForwardAllowed) d₁ d₃ ∧
      d₁.getNumBlocks = 4 ∧ d₃.getBalance = some (10, 5) ∧
      d₃.getBalance.isSome ∧ d₁.getNumBlocks ≤ d₃.getNumBlocks := by
  let c₁ : CacheCall Nat := .pollFogForTxos 5 [⟨7, 3, .ok (10, 1)⟩]
  let d₁ : CachedTxData Nat := (call new c₁).getD new
  let c₂ : CacheCall Nat := .pollFogForKeyImages (.ok notSpentResponse)
  let d₂ : CachedTxData Nat := (call d₁ c₂).getD d₁
  let c₃ : CacheCall Nat := .consumeNewTxoRecords [⟨8, 7, .ok (4, 2)⟩]
  let d₃ : CachedTxData Nat := (call d₂ c₃).getD d₂
  have hallowed₁ : Allowed new c₁ := by
    intro r hr
    simp only [List.mem_singleton] at hr
    subst hr
    decide
  have hforward₃ : ForwardAllowed d₂ c₃ := by
    intro r hr
    simp only [List.mem_singleton] at hr
    subst hr
    decide
  have hreach : Relation.ReflTransGen (AdmissibleStep call Allowed) new d₁ :=
    .tail .refl ⟨c₁, hallowed₁, rfl⟩
  have hcalls : Relation.ReflTransGen (AdmissibleStep call ForwardAllowed) d₁ d₃ :=
    (Relation.ReflTransGen.single ⟨c₂, responseSound_notSpentResponse d₁, rfl⟩).tail
      ⟨c₃, hforward₃, rfl⟩
  have hreach₃ : Relation.ReflTransGen (AdmissibleStep call Allowed) new d₃ :=
    (hreach.tail ⟨c₂, responseSound_notSpentResponse d₁, rfl⟩).tail
      ⟨c₃, hforward₃.allowed, rfl⟩
  exact ⟨d₁, d₃, hreach, hcalls, rfl, rfl, (cachedTxData_keeps_balance_invariants.1 d₃ hreach₃).2.1,
    cachedTxData_keeps_balance_invariants.2 d₁ d₃ hreach hcalls⟩

/-- A client polls fog view (count 5, a txo of block 3), then its key images
(not spent as of count 6), which raises {lit}`get_num_blocks` to 5; the one
poll's record is at or past the count before it, and every call is allowed.
Consuming a matched record of block 0 directly then lowers the completeness to
1, and {lit}`get_num_blocks` with it. -/
theorem getNumBlocks_drops_after_direct_consume :
    ∃ d₁ d₂ d₃ : CachedTxData Nat,
      call new (.pollFogForTxos 5 [⟨7, 3, .ok (10, 1)⟩]) = some d₁ ∧
      Allowed new (.pollFogForTxos 5 [⟨7, 3, .ok (10, 1)⟩]) ∧
      (∀ r ∈ [(⟨7, 3, .ok (10, 1)⟩ : TxOutRecord Nat)],
        (new : CachedTxData Nat).rngHighestProcessedBlockCount ≤ r.blockIndex) ∧
      call d₁ (.pollFogForKeyImages (.ok notSpentResponse)) = some d₂ ∧
      Allowed d₁ (.pollFogForKeyImages (.ok notSpentResponse)) ∧
      call d₂ (.consumeNewTxoRecords [⟨8, 0, .ok (4, 2)⟩]) = some d₃ ∧
      Allowed d₂ (.consumeNewTxoRecords [⟨8, 0, .ok (4, 2)⟩]) ∧
      d₂.getNumBlocks = 5 ∧ d₃.getNumBlocks = 1 := by
  refine ⟨_, _, _, rfl, ?_, ?_, rfl, responseSound_notSpentResponse _, rfl, ?_, rfl, rfl⟩
  · intro r hr
    simp only [List.mem_singleton] at hr
    subst hr
    decide
  · intro r hr
    simp only [List.mem_singleton] at hr
    subst hr
    decide
  · intro r hr
    simp only [List.mem_singleton] at hr
    subst hr
    decide

end CachedTxData

end Paykit
end Fog
