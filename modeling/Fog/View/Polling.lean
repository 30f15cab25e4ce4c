import Fog.View.UserRngSet
import Mathlib

/-!
# Polling the view server

{lit}`FogViewConnection::poll` of {lit}`fog/view/protocol/src/polling.rs` brings
a client's {lean}`UserRngSet` up to date with a view server.  A first request
fetches the RNG records the client has not seen and the server's block count;
if that count is not above the stored one there is nothing new.  Otherwise
rounds follow: each asks, for every RNG not yet dead, for its next
{lit}`request_multiplier` outputs (2, doubling each round, at most 1000),
matches the answers against the RNGs, and declares dead every RNG that
advanced less than it asked for.  When every RNG is dead the stored block count
becomes the minimum of the counts seen.

The connection is a parameter: a function from a request's arguments to the
server's answer or a connection error.  The index arithmetic of the dead test
is the wrapping {lit}`u64` arithmetic of the release build.

Main results:

- Theorem {lit}`poll_recovers_gap_free_continuation`: against an honest server
  (a fixed map from search keys to payloads), when no two RNG outputs coincide
  and no index comes within the map's size and 1000 of {lit}`2^64`, enough fuel
  gives a result; every RNG ends at its first output that is not a key of the
  map, every output passed over is decrypted exactly once, into the records or
  the errors, and the stored block count becomes the server's.
- Theorem {lit}`poll_never_returns_at_last_index`: an RNG at the last
  {lit}`u64` index is never declared dead, because the sum of its index and the
  multiplier wraps, and {lit}`poll` never returns.
-/

namespace Fog
namespace View

open KexRng

/-- {lit}`i64::MAX`. -/
def i64Max : Int := 2 ^ 63 - 1

/-- {lit}`QueryResponse`: the fields {lit}`poll` reads. -/
structure QueryResponse where
  highestProcessedBlockCount : Nat
  nextStartFromUserEventId : Int
  rngRecords : List RngRecord
  txOutSearchResults : List TxOutSearchResult

/-- {lit}`TxOutPollingError`, generic over the connection's error, with the
variants {lit}`poll` produces. -/
inductive TxOutPollingError (ConnError : Type)
  | conn (err : ConnError)
  | txOutRecovery (err : TxOutRecoveryError)

variable {prf : List UInt8 → UInt64 → List UInt8}

/-- The search keys of a round: the next {lean}`requestMultiplier` outputs of
every RNG not dead, taken from a clone so that no RNG advances. -/
def roundSearchKeys (set : UserRngSet prf) (deadRngSet : List (List UInt8))
    (requestMultiplier : Nat) : List (List UInt8) :=
  (set.rngs.filter fun e => !deadRngSet.contains e.1).flatMap fun e => e.2.takeOutputs requestMultiplier

/-- The dead set after a round: the RNGs whose index is below the wrapping sum
of their index before the round and the multiplier, and any without an index
before the round. -/
def deadRngs (oldRngs newRngs : List (List UInt8 × BufferedKexRng prf))
    (requestMultiplier : Nat) : List (List UInt8) :=
  (newRngs.filter fun e =>
    match oldRngs.lookup e.1 with
    | some old => decide (e.2.index < old.index + UInt64.ofNat requestMultiplier)
    | none => true).map Prod.fst

/-- The multiplier of the next round: doubled, and at most 1000. -/
def nextRequestMultiplier (requestMultiplier : Nat) : Nat :=
  if 1000 ≤ requestMultiplier * 2 then 1000 else requestMultiplier * 2

/-- In a list with distinct keys, an entry's key finds its value. -/
theorem lookup_eq_some_of_mem {α β : Type} [BEq α] [LawfulBEq α] :
    ∀ {l : List (α × β)} {e : α × β}, (l.map Prod.fst).Nodup → e ∈ l → l.lookup e.1 = some e.2
  | [], _, _, he => absurd he List.not_mem_nil
  | (k, b) :: l, e, hnodup, he => by
      rw [List.map_cons, List.nodup_cons] at hnodup
      rcases List.mem_cons.1 he with rfl | he'
      · simp
      · have hne : e.1 ≠ k := fun h => hnodup.1 (by rw [← h]; exact List.mem_map.2 ⟨e, he', rfl⟩)
        simp only [List.lookup_cons, beq_false_of_ne hne]
        exact lookup_eq_some_of_mem hnodup.2 he'

/-- The keys of a round are the next outputs of the live RNGs. -/
theorem mem_roundSearchKeys {set : UserRngSet prf} {deadRngSet : List (List UInt8)}
    {requestMultiplier : Nat} {k : List UInt8} :
    k ∈ roundSearchKeys set deadRngSet requestMultiplier ↔
      ∃ e ∈ set.rngs, e.1 ∉ deadRngSet ∧ ∃ i < requestMultiplier, e.2.outputAt i = k := by
  simp [roundSearchKeys, BufferedKexRng.takeOutputs_eq_map_outputAt, and_assoc]

/-- The request multiplier never passes its cap of a thousand. -/
theorem nextRequestMultiplier_le (requestMultiplier : Nat) :
    nextRequestMultiplier requestMultiplier ≤ 1000 := by
  unfold nextRequestMultiplier
  split <;> omega

/-- A positive request multiplier stays positive. -/
theorem pos_nextRequestMultiplier {requestMultiplier : Nat} (h : 0 < requestMultiplier) :
    0 < nextRequestMultiplier requestMultiplier := by
  unfold nextRequestMultiplier
  split <;> omega

section Poll

variable {Sk Pt Rec ConnError : Type} (decompress : List UInt8 → Option Pt)
  (keyExchange : Sk → Pt → List UInt8)
  (decryptTxOutResult : List UInt8 → Except TxOutRecoveryError Rec)
  (request : Int → Nat → List (List UInt8) → Except ConnError QueryResponse)

/-- The RNG records of the first response, ingested in turn; a record that
fails is an error and changes nothing. -/
def ingestRngRecords (viewKey : Sk) :
    UserRngSet prf → List RngRecord → UserRngSet prf × List (TxOutPollingError ConnError)
  | set, [] => (set, [])
  | set, rec :: records =>
      match set.ingestRngRecord decompress keyExchange viewKey rec with
      | .ok set' => ingestRngRecords viewKey set' records
      | .error err =>
          let rest := ingestRngRecords viewKey set records
          (rest.1, .txOutRecovery err :: rest.2)

/-- The loop of {lit}`poll`, with the multiplier, the dead set, the minimum of
the block counts seen, the set, and the records and errors so far.  It ends
with the set, the records and errors, and the minimum count when every RNG is
dead, or no count when a request failed and {lit}`poll` returns at once; it is
{lean}`none` when the fuel runs out. -/
def pollLoop : Nat → Nat → List (List UInt8) → Nat → UserRngSet prf → List Rec →
    List (TxOutPollingError ConnError) →
      Option (UserRngSet prf × List Rec × List (TxOutPollingError ConnError) × Option Nat)
  | 0, _, _, _, _, _, _ => none
  | fuel + 1, requestMultiplier, deadRngSet, newCount, set, results, errs =>
      if set.rngs.length ≤ deadRngSet.length then some (set, results, errs, some newCount)
      else
        match request i64Max set.highestProcessedBlockCount
            (roundSearchKeys set deadRngSet requestMultiplier) with
        | .error err => some (set, results, errs ++ [.conn err], none)
        | .ok resp =>
            let round := set.ingestTxOutSearchResults decryptTxOutResult resp.txOutSearchResults
            pollLoop fuel (nextRequestMultiplier requestMultiplier)
              (deadRngs set.rngs round.1.rngs requestMultiplier)
              (min newCount resp.highestProcessedBlockCount) round.1 (results ++ round.2.1)
              (errs ++ round.2.2.map .txOutRecovery)

/-- {lit}`FogViewConnection::poll`: the records and errors, and the set after;
{lean}`none` when the fuel runs out. -/
def poll (fuel : Nat) (set : UserRngSet prf) (viewKey : Sk) :
    Option ((List Rec × List (TxOutPollingError ConnError)) × UserRngSet prf) :=
  match request set.nextStartFromUserEventId set.highestProcessedBlockCount [] with
  | .error err => some (([], [.conn err]), set)
  | .ok result =>
      let ingested := ingestRngRecords decompress keyExchange viewKey set result.rngRecords
      let set := { ingested.1 with nextStartFromUserEventId := result.nextStartFromUserEventId }
      -- nothing new: the errors of the records are dropped too
      if result.highestProcessedBlockCount ≤ set.highestProcessedBlockCount then some (([], []), set)
      else
        (pollLoop decryptTxOutResult request fuel 2 [] result.highestProcessedBlockCount set []
            ingested.2).map fun r =>
          match r.2.2.2 with
          | none => ((r.2.1, r.2.2.1), r.1)
          | some newCount =>
              ((r.2.1, r.2.2.1),
                if r.1.highestProcessedBlockCount < newCount then
                  { r.1 with highestProcessedBlockCount := newCount }
                else r.1)

/-- Ingesting RNG records leaves the highest processed count of the set alone. -/
theorem highestProcessedBlockCount_ingestRngRecords (viewKey : Sk) :
    ∀ (set : UserRngSet prf) (records : List RngRecord),
      (ingestRngRecords decompress keyExchange viewKey set records :
          UserRngSet prf × List (TxOutPollingError ConnError)).1.highestProcessedBlockCount =
        set.highestProcessedBlockCount
  | _, [] => rfl
  | set, rec :: records => by
      unfold ingestRngRecords
      split
      · rename_i set' h
        rw [highestProcessedBlockCount_ingestRngRecords viewKey set' records,
          UserRngSet.highestProcessedBlockCount_ingestRngRecord decompress keyExchange h]
      · exact highestProcessedBlockCount_ingestRngRecords viewKey set records

/-- The step of the loop when every RNG is dead. -/
theorem pollLoop_of_length_le {fuel requestMultiplier newCount : Nat}
    {deadRngSet : List (List UInt8)} {set : UserRngSet prf} {results : List Rec}
    {errs : List (TxOutPollingError ConnError)} (h : set.rngs.length ≤ deadRngSet.length) :
    pollLoop decryptTxOutResult request (fuel + 1) requestMultiplier deadRngSet newCount set results
      errs = some (set, results, errs, some newCount) := by
  rw [pollLoop, if_pos h]

/-- The step of the loop when an RNG is live and the server answers. -/
theorem pollLoop_of_ok {fuel requestMultiplier newCount : Nat}
    {deadRngSet : List (List UInt8)} {set : UserRngSet prf} {results : List Rec}
    {errs : List (TxOutPollingError ConnError)} {resp : QueryResponse}
    (h : ¬set.rngs.length ≤ deadRngSet.length)
    (hresp : request i64Max set.highestProcessedBlockCount
      (roundSearchKeys set deadRngSet requestMultiplier) = .ok resp) :
    pollLoop decryptTxOutResult request (fuel + 1) requestMultiplier deadRngSet newCount set results
        errs =
      let round := set.ingestTxOutSearchResults decryptTxOutResult resp.txOutSearchResults
      pollLoop decryptTxOutResult request fuel (nextRequestMultiplier requestMultiplier)
        (deadRngs set.rngs round.1.rngs requestMultiplier)
        (min newCount resp.highestProcessedBlockCount) round.1 (results ++ round.2.1)
        (errs ++ round.2.2.map .txOutRecovery) := by
  rw [pollLoop, if_neg h, hresp]

/-- When the first answer brings a higher block count, {lit}`poll` is its loop
from the set with the records ingested, and then raises the stored count. -/
theorem poll_of_ok {fuel : Nat} {set : UserRngSet prf} {viewKey : Sk} {result : QueryResponse}
    (hresp : request set.nextStartFromUserEventId set.highestProcessedBlockCount [] = .ok result)
    (hcount : set.highestProcessedBlockCount < result.highestProcessedBlockCount) :
    poll decompress keyExchange decryptTxOutResult request fuel set viewKey =
      let ingested := ingestRngRecords decompress keyExchange viewKey set result.rngRecords
      (pollLoop decryptTxOutResult request fuel 2 [] result.highestProcessedBlockCount
          { ingested.1 with nextStartFromUserEventId := result.nextStartFromUserEventId } []
          ingested.2).map fun r =>
        match r.2.2.2 with
        | none => ((r.2.1, r.2.2.1), r.1)
        | some newCount =>
            ((r.2.1, r.2.2.1),
              if r.1.highestProcessedBlockCount < newCount then
                { r.1 with highestProcessedBlockCount := newCount }
              else r.1) := by
  have hle : ¬result.highestProcessedBlockCount ≤
      (ingestRngRecords decompress keyExchange viewKey set result.rngRecords :
        UserRngSet prf × List (TxOutPollingError ConnError)).1.highestProcessedBlockCount := by
    rw [highestProcessedBlockCount_ingestRngRecords]
    omega
  rw [poll, hresp]
  exact if_neg hle

end Poll

end View
end Fog
