import Fog.View.ETxOutStore
import Fog.KexRng.Buffered
import Fog.Lib.Except

/-!
# The client's set of RNGs

{lit}`UserRngSet` of {lit}`fog/view/protocol/src/user_rng_set.rs` holds one
RNG for every ingest public key the client has been told about, keyed by the
key's bytes.  {lit}`ingest_rng_record` adds the RNG of a new record;
{lit}`ingest_tx_out_search_results` matches a batch of search results against
the RNGs: it collects the found results in a map from search key to payload,
then for every RNG, while the map holds its next output, removes that entry,
decrypts the payload and advances the RNG.  Entries no RNG claimed are
reported as errors.

The hash map of RNGs is a list of pairs in its iteration order, with distinct
keys as a field of the structure.  The result map is Mathlib's {lean}`AList`.
The user's private key enters only through the key exchange and the decryption
of payloads, both parameters.

Main results:

- Theorem {lit}`UserRngSet.drainRng_spec`: an RNG whose next {lit}`a` outputs
  are in the map and whose output after them is not advances {lit}`a` times,
  and its {lit}`a` payloads are decrypted in order.
- Theorem {lit}`UserRngSet.drainRngs_spec`: when no two RNGs share an output,
  every RNG advances over its own run of found outputs, as if it were alone.
-/

namespace Fog
namespace View

open KexRng

/-- {lit}`RngRecord`: of an ingest invocation's record, the public key the
client reads. -/
structure RngRecord where
  pubkey : KexRngPubkey
deriving DecidableEq, Repr

/-- {lit}`TxOutRecoveryError`, with the variants the modelled functions and
the decryption produce; the payloads of the crypto-box and kex-rng errors are
not modelled. -/
inductive TxOutRecoveryError
  | txOutRecordDeserializationFailed
  | decryptionFailed
  | macCheckFailed
  | txOutSearchFailure (code : TxOutSearchResultCode) (searchKey : List UInt8)
  | searchKeyNotFound (searchKey : List UInt8)
  | kexRng
deriving DecidableEq, Repr

/-- {lit}`UserRngSet`: the RNGs by the public key that made them, and the two
values the server last reported. -/
structure UserRngSet (prf : List UInt8 → UInt64 → List UInt8) where
  rngs : List (List UInt8 × BufferedKexRng prf)
  highestProcessedBlockCount : Nat
  nextStartFromUserEventId : Int
  /-- The RNGs are a map: one per key. -/
  nodup_keys : (rngs.map Prod.fst).Nodup

/-- The buffers of {lit}`ingest_tx_out_search_results`: the map from search
keys to the payloads of the found results not yet claimed by an RNG, and the
records and errors pushed so far. -/
structure SearchBuffers (Rec : Type) where
  txResultMap : AList fun _ : List UInt8 => List UInt8
  successes : List Rec
  failures : List TxOutRecoveryError

namespace UserRngSet

variable {prf : List UInt8 → UInt64 → List UInt8}

/-- {lit}`UserRngSet::new`. -/
def new : UserRngSet prf :=
  ⟨[], 0, 0, List.nodup_nil⟩

/-- {lit}`entry(key).or_insert(rng)`: a key already present keeps its RNG; a
new key is added, last in the iteration order. -/
def orInsert (set : UserRngSet prf) (key : List UInt8) (rng : BufferedKexRng prf) :
    UserRngSet prf :=
  if hkey : key ∈ set.rngs.map Prod.fst then set
  else
    { set with
      rngs := set.rngs ++ [(key, rng)]
      nodup_keys := by
        rw [List.map_append, List.map_singleton, List.nodup_append]
        refine ⟨set.nodup_keys, List.nodup_singleton _, fun a ha b hb hab => hkey ?_⟩
        have hak : a = key := hab.trans (List.mem_singleton.1 hb)
        exact hak ▸ ha }

/-- Inserting an RNG leaves the highest processed count alone. -/
@[simp]
theorem highestProcessedBlockCount_orInsert (set : UserRngSet prf) (key : List UInt8)
    (rng : BufferedKexRng prf) :
    (set.orInsert key rng).highestProcessedBlockCount = set.highestProcessedBlockCount := by
  unfold orInsert
  split <;> rfl

section Ingest

variable {Sk Pt : Type} (decompress : List UInt8 → Option Pt) (keyExchange : Sk → Pt → List UInt8)

/-- {lit}`ingest_rng_record`: the RNG of the record's public key, added unless
its key is already present; a public key the client cannot use is an error and
changes nothing. -/
def ingestRngRecord (set : UserRngSet prf) (viewKey : Sk) (rec : RngRecord) :
    Except TxOutRecoveryError (UserRngSet prf) :=
  match tryFromKexPubkey prf decompress keyExchange rec.pubkey viewKey with
  | none => .error .kexRng
  | some rng => .ok (set.orInsert rec.pubkey.publicKey rng)

/-- Ingesting a record changes no block count. -/
theorem highestProcessedBlockCount_ingestRngRecord {set set' : UserRngSet prf} {viewKey : Sk}
    {rec : RngRecord} (h : set.ingestRngRecord decompress keyExchange viewKey rec = .ok set') :
    set'.highestProcessedBlockCount = set.highestProcessedBlockCount := by
  unfold ingestRngRecord at h
  split at h
  · cases h
  · cases h
    exact highestProcessedBlockCount_orInsert _ _ _

end Ingest

section Match

variable {Rec : Type} (decryptTxOutResult : List UInt8 → Except TxOutRecoveryError Rec)

/-- The first loop of {lit}`ingest_tx_out_search_results` on one result: a
found result's payload goes into the map (replacing one under the same key), a
failure code is an error, and a miss is dropped. -/
def collectResult (b : SearchBuffers Rec) (result : TxOutSearchResult) : SearchBuffers Rec :=
  if result.resultCode = .found then
    { b with txResultMap := b.txResultMap.insert result.searchKey result.ciphertext }
  else if result.resultCode ≠ .notFound then
    { b with failures := b.failures ++ [.txOutSearchFailure result.resultCode result.searchKey] }
  else b

/-- Push the decryption of a payload: a record to the successes, an error to
the failures. -/
def pushDecrypted (b : SearchBuffers Rec) : Except TxOutRecoveryError Rec → SearchBuffers Rec
  | .ok txo => { b with successes := b.successes ++ [txo] }
  | .error err => { b with failures := b.failures ++ [err] }

/-- The {lit}`while let` loop for one RNG: while the map holds the RNG's next
output, remove it, decrypt its payload and advance.  Every round removes an
entry, so the map's size bounds the rounds; the fuel is that size. -/
def drainRng : Nat → BufferedKexRng prf → SearchBuffers Rec → BufferedKexRng prf × SearchBuffers Rec
  | 0, rng, b => (rng, b)
  | fuel + 1, rng, b =>
      match b.txResultMap.lookup rng.peek with
      | none => (rng, b)
      | some ciphertext =>
          drainRng fuel rng.advance
            (pushDecrypted { b with txResultMap := b.txResultMap.erase rng.peek }
              (decryptTxOutResult ciphertext))

/-- The loop over the RNGs in the map's iteration order, each draining the
result map from where the previous one left it. -/
def drainRngs : List (List UInt8 × BufferedKexRng prf) → SearchBuffers Rec →
    List (List UInt8 × BufferedKexRng prf) × SearchBuffers Rec
  | [], b => ([], b)
  | (key, rng) :: rest, b =>
      let drained := drainRng decryptTxOutResult b.txResultMap.keys.length rng b
      let others := drainRngs rest drained.2
      ((key, drained.1) :: others.1, others.2)

/-- Draining keeps every key in its place. -/
theorem map_fst_drainRngs :
    ∀ (rngs : List (List UInt8 × BufferedKexRng prf)) (b : SearchBuffers Rec),
      (drainRngs decryptTxOutResult rngs b).1.map Prod.fst = rngs.map Prod.fst
  | [], _ => rfl
  | (key, rng) :: rest, b => by
      simp only [drainRngs, List.map_cons, map_fst_drainRngs rest]

/-- {lit}`ingest_tx_out_search_results`: the set with its RNGs advanced, the
records decrypted, and the errors: failed searches and decryptions, then the
results no RNG claimed. -/
def ingestTxOutSearchResults (set : UserRngSet prf) (results : List TxOutSearchResult) :
    UserRngSet prf × List Rec × List TxOutRecoveryError :=
  let collected := results.foldl collectResult ⟨∅, [], []⟩
  let drained := drainRngs decryptTxOutResult set.rngs collected
  ({ set with
      rngs := drained.1
      nodup_keys := by
        rw [map_fst_drainRngs]
        exact set.nodup_keys },
    drained.2.successes,
    drained.2.failures ++ drained.2.txResultMap.keys.map .searchKeyNotFound)

/-! ## Draining the result map -/

/-- Collecting one result pushes no record. -/
@[simp]
theorem successes_collectResult (b : SearchBuffers Rec) (result : TxOutSearchResult) :
    (collectResult b result).successes = b.successes := by
  unfold collectResult
  split_ifs <;> rfl

/-- Collecting the results pushes no record. -/
theorem successes_foldl_collectResult (results : List TxOutSearchResult) (b : SearchBuffers Rec) :
    (results.foldl collectResult b).successes = b.successes := by
  induction results generalizing b with
  | nil => rfl
  | cons result results ih => rw [List.foldl_cons, ih, successes_collectResult]

/-- Pushing a decryption leaves the result map alone. -/
@[simp]
theorem txResultMap_pushDecrypted (b : SearchBuffers Rec) (x : Except TxOutRecoveryError Rec) :
    (pushDecrypted b x).txResultMap = b.txResultMap := by
  cases x <;> rfl

/-- A decrypted record goes to the successes. -/
@[simp]
theorem successes_pushDecrypted (b : SearchBuffers Rec) (x : Except TxOutRecoveryError Rec) :
    (pushDecrypted b x).successes = b.successes ++ x.toOption.toList := by
  cases x <;> simp [pushDecrypted, Except.toOption]

/-- A failed decryption goes to the failures. -/
@[simp]
theorem failures_pushDecrypted (b : SearchBuffers Rec) (x : Except TxOutRecoveryError Rec) :
    (pushDecrypted b x).failures = b.failures ++ (Except.toError? x).toList := by
  cases x <;> simp [pushDecrypted, Except.toError?]

/-- The decryptions of the payloads a map holds for an RNG's next {lean}`a`
outputs, in order. -/
def decryptedRun (m : AList fun _ : List UInt8 => List UInt8) (rng : BufferedKexRng prf)
    (a : Nat) : List (Except TxOutRecoveryError Rec) :=
  (List.range a).filterMap fun i => (m.lookup (rng.outputAt i)).map decryptTxOutResult

/-- A run of no outputs decrypts nothing. -/
@[simp]
theorem decryptedRun_zero (m : AList fun _ : List UInt8 => List UInt8) (rng : BufferedKexRng prf) :
    decryptedRun decryptTxOutResult m rng 0 = [] :=
  rfl

/-- A run of {lean}`j + a` is the run of {lean}`j`, then the run of {lean}`a`
of the RNG advanced {lean}`j` times. -/
theorem decryptedRun_add (m : AList fun _ : List UInt8 => List UInt8) (rng : BufferedKexRng prf)
    (j a : Nat) :
    decryptedRun decryptTxOutResult m rng (j + a) =
      decryptedRun decryptTxOutResult m rng j ++
        decryptedRun decryptTxOutResult m (BufferedKexRng.advance^[j] rng) a := by
  unfold decryptedRun
  rw [List.range_add, List.filterMap_append, List.filterMap_map]
  congr 1
  refine List.filterMap_congr fun i _ => ?_
  rw [Function.comp_apply, BufferedKexRng.outputAt_iterate_advance]

/-- The run depends on the map only at the RNG's outputs. -/
theorem decryptedRun_congr {m m' : AList fun _ : List UInt8 => List UInt8}
    {rng : BufferedKexRng prf} {a : Nat}
    (h : ∀ i < a, m.lookup (rng.outputAt i) = m'.lookup (rng.outputAt i)) :
    decryptedRun decryptTxOutResult m rng a = decryptedRun decryptTxOutResult m' rng a := by
  unfold decryptedRun
  refine List.filterMap_congr fun i hi => ?_
  rw [h i (List.mem_range.1 hi)]

/-- A run of {lean}`a + 1` is the first payload's decryption, then the run of
the advanced RNG in the map without that payload. -/
theorem decryptedRun_succ {m : AList fun _ : List UInt8 => List UInt8}
    {rng : BufferedKexRng prf} {a : Nat} {ciphertext : List UInt8}
    (hfirst : m.lookup (rng.outputAt 0) = some ciphertext)
    (hne : ∀ i < a, rng.outputAt (i + 1) ≠ rng.outputAt 0) :
    decryptedRun decryptTxOutResult m rng (a + 1) =
      decryptTxOutResult ciphertext ::
        decryptedRun decryptTxOutResult (m.erase (rng.outputAt 0)) rng.advance a := by
  unfold decryptedRun
  rw [List.range_succ_eq_map, List.filterMap_cons_some (by rw [hfirst]; rfl), List.filterMap_map]
  congr 1
  refine List.filterMap_congr fun i hi => ?_
  rw [Function.comp_apply, BufferedKexRng.outputAt_advance,
    AList.lookup_erase_ne (hne i (List.mem_range.1 hi))]

/-- {lean}`a` distinct outputs found in a map fit in it. -/
theorem le_length_keys {m : AList fun _ : List UInt8 => List UInt8} {rng : BufferedKexRng prf}
    {a : Nat} (hfound : ∀ i < a, rng.outputAt i ∈ m)
    (hinj : ∀ i ≤ a, ∀ j ≤ a, rng.outputAt i = rng.outputAt j → i = j) :
    a ≤ m.keys.length := by
  have hnodup : ((List.range a).map rng.outputAt).Nodup := by
    refine List.Nodup.map_on (fun i hi j hj hij => ?_) List.nodup_range
    exact hinj i (List.mem_range.1 hi).le j (List.mem_range.1 hj).le hij
  have hsub : (List.range a).map rng.outputAt ⊆ m.keys := by
    intro k hk
    obtain ⟨i, hi, rfl⟩ := List.mem_map.1 hk
    exact AList.mem_keys.1 (hfound i (List.mem_range.1 hi))
  simpa using (List.subperm_of_subset hnodup hsub).length_le

/-- An RNG whose next output has no result is not drained. -/
theorem drainRng_of_lookup_eq_none {fuel : Nat} {rng : BufferedKexRng prf}
    {b : SearchBuffers Rec} (h : b.txResultMap.lookup (rng.outputAt 0) = none) :
    drainRng decryptTxOutResult fuel rng b = (rng, b) := by
  cases fuel with
  | zero => rfl
  | succ fuel => rw [drainRng, BufferedKexRng.peek_eq_outputAt, h]

/-- An RNG whose next output has a result takes it out of the map, pushes its
decryption and advances. -/
theorem drainRng_of_lookup_eq_some {fuel : Nat} {rng : BufferedKexRng prf}
    {b : SearchBuffers Rec} {ciphertext : List UInt8}
    (h : b.txResultMap.lookup (rng.outputAt 0) = some ciphertext) :
    drainRng decryptTxOutResult (fuel + 1) rng b =
      drainRng decryptTxOutResult fuel rng.advance
        (pushDecrypted { b with txResultMap := b.txResultMap.erase (rng.outputAt 0) }
          (decryptTxOutResult ciphertext)) := by
  rw [drainRng, BufferedKexRng.peek_eq_outputAt, h]

/-- With an empty map no RNG advances and nothing is pushed. -/
theorem drainRngs_of_txResultMap_eq_empty {b : SearchBuffers Rec} (hempty : b.txResultMap = ∅) :
    ∀ rngs : List (List UInt8 × BufferedKexRng prf), drainRngs decryptTxOutResult rngs b = (rngs, b)
  | [] => rfl
  | (key, rng) :: rest => by
      have hnone : b.txResultMap.lookup (rng.outputAt 0) = none := by
        rw [hempty, AList.lookup_empty]
      simp only [drainRngs, drainRng_of_lookup_eq_none decryptTxOutResult hnone,
        drainRngs_of_txResultMap_eq_empty hempty rest]

/-- The loop for one RNG: an RNG whose next {lean}`a` outputs are in the map,
and whose output after them is not, advances {lean}`a` times; the payloads of
those outputs are decrypted in order and removed from the map, and nothing else
changes.  The induction is on {lean}`a`, one round of the loop at a time. -/
theorem drainRng_spec {a : Nat} : ∀ (fuel : Nat) {rng : BufferedKexRng prf} {b : SearchBuffers Rec},
    (∀ i < a, rng.outputAt i ∈ b.txResultMap) → rng.outputAt a ∉ b.txResultMap →
    (∀ i ≤ a, ∀ j ≤ a, rng.outputAt i = rng.outputAt j → i = j) → a ≤ fuel →
    (drainRng decryptTxOutResult fuel rng b).1 = BufferedKexRng.advance^[a] rng ∧
    (drainRng decryptTxOutResult fuel rng b).2.successes = b.successes ++
      (decryptedRun decryptTxOutResult b.txResultMap rng a).filterMap Except.toOption ∧
    (drainRng decryptTxOutResult fuel rng b).2.failures = b.failures ++
      (decryptedRun decryptTxOutResult b.txResultMap rng a).filterMap Except.toError? ∧
    ∀ k, (drainRng decryptTxOutResult fuel rng b).2.txResultMap.lookup k =
      if k ∈ (List.range a).map rng.outputAt then none else b.txResultMap.lookup k := by
  induction a with
  | zero =>
      intro fuel rng b _ hmiss _ _
      rw [drainRng_of_lookup_eq_none decryptTxOutResult (AList.lookup_eq_none.2 hmiss)]
      simp [decryptedRun]
  | succ a ih =>
      intro fuel rng b hfound hmiss hinj hfuel
      obtain ⟨fuel, rfl⟩ : ∃ f, fuel = f + 1 := ⟨fuel - 1, by omega⟩
      obtain ⟨ciphertext, hc⟩ :=
        Option.isSome_iff_exists.1 (AList.lookup_isSome.2 (hfound 0 (Nat.succ_pos a)))
      have hne : ∀ i ≤ a, rng.outputAt (i + 1) ≠ rng.outputAt 0 := fun i hi heq =>
        Nat.succ_ne_zero i (hinj (i + 1) (by omega) 0 (Nat.zero_le _) heq)
      set b' := pushDecrypted { b with txResultMap := b.txResultMap.erase (rng.outputAt 0) }
        (decryptTxOutResult ciphertext) with hb'
      have hmap' : b'.txResultMap = b.txResultMap.erase (rng.outputAt 0) := by
        rw [hb', txResultMap_pushDecrypted]
      have hrest := @ih fuel rng.advance b'
        (fun i hi => by
          rw [hmap', AList.mem_erase, BufferedKexRng.outputAt_advance]
          exact ⟨hne i hi.le, hfound (i + 1) (by omega)⟩)
        (fun hmem => by
          rw [hmap', AList.mem_erase, BufferedKexRng.outputAt_advance] at hmem
          exact hmiss hmem.2)
        (fun i hi j hj heq => by
          rw [BufferedKexRng.outputAt_advance, BufferedKexRng.outputAt_advance] at heq
          have := hinj (i + 1) (by omega) (j + 1) (by omega) heq
          omega)
        (by omega)
      obtain ⟨hrng, hsucc, hfail, hlookup⟩ := hrest
      have hrun : decryptedRun decryptTxOutResult b.txResultMap rng (a + 1) =
          decryptTxOutResult ciphertext ::
            decryptedRun decryptTxOutResult b'.txResultMap rng.advance a := by
        rw [hmap']
        exact decryptedRun_succ decryptTxOutResult hc fun i hi => hne i hi.le
      rw [drainRng_of_lookup_eq_some decryptTxOutResult hc]
      refine ⟨by rw [hrng, Function.iterate_succ_apply], ?_, ?_, fun k => ?_⟩
      · rw [hsucc, hrun, hb', successes_pushDecrypted, List.append_assoc,
          List.filterMap_cons_eq_toList_append]
      · rw [hfail, hrun, hb', failures_pushDecrypted, List.append_assoc,
          List.filterMap_cons_eq_toList_append]
      · rw [hlookup, hmap', List.range_succ_eq_map, List.map_cons, List.map_map]
        by_cases hk : k ∈ (List.range a).map rng.advance.outputAt
        · have hk' : k ∈ (List.range a).map (rng.outputAt ∘ Nat.succ) := by
            simpa [BufferedKexRng.outputAt_advance] using hk
          rw [if_pos hk, if_pos (List.mem_cons_of_mem _ hk')]
        · have hk' : k ∉ (List.range a).map (rng.outputAt ∘ Nat.succ) := by
            simpa [BufferedKexRng.outputAt_advance] using hk
          rw [if_neg hk]
          by_cases h0 : k = rng.outputAt 0
          · rw [h0, AList.lookup_erase, if_pos List.mem_cons_self]
          · rw [AList.lookup_erase_ne h0, if_neg (by simpa [h0] using hk')]

/-- The loop over the RNGs: when no two RNGs share an output, each RNG meets
its own outputs in the map as if it were alone, so it advances over its own run
of found outputs; the records and errors are those of the runs, RNG by RNG.
The induction is on the list of RNGs: one RNG's drain leaves the map as it was
at every other RNG's outputs. -/
theorem drainRngs_spec (a : List UInt8 → Nat) :
    ∀ {rngs : List (List UInt8 × BufferedKexRng prf)} {b : SearchBuffers Rec},
    (∀ e ∈ rngs, (∀ i < a e.1, e.2.outputAt i ∈ b.txResultMap) ∧
      e.2.outputAt (a e.1) ∉ b.txResultMap) →
    (∀ e ∈ rngs, ∀ i ≤ a e.1, ∀ j ≤ a e.1, e.2.outputAt i = e.2.outputAt j → i = j) →
    rngs.Pairwise (fun e₁ e₂ => ∀ i j, e₁.2.outputAt i ≠ e₂.2.outputAt j) →
    (drainRngs decryptTxOutResult rngs b).1 =
      rngs.map (fun e => (e.1, BufferedKexRng.advance^[a e.1] e.2)) ∧
    (drainRngs decryptTxOutResult rngs b).2.successes = b.successes ++ rngs.flatMap (fun e =>
      (decryptedRun decryptTxOutResult b.txResultMap e.2 (a e.1)).filterMap Except.toOption) ∧
    (drainRngs decryptTxOutResult rngs b).2.failures = b.failures ++ rngs.flatMap (fun e =>
      (decryptedRun decryptTxOutResult b.txResultMap e.2 (a e.1)).filterMap Except.toError?)
  | [], b, _, _, _ => by simp [drainRngs]
  | (key, rng) :: rest, b, hrun, hinj, hpair => by
      obtain ⟨hfound, hmiss⟩ := hrun (key, rng) List.mem_cons_self
      have hinj₀ := hinj (key, rng) List.mem_cons_self
      obtain ⟨hrng, hsucc, hfail, hlookup⟩ :=
        drainRng_spec decryptTxOutResult b.txResultMap.keys.length hfound hmiss hinj₀
          (le_length_keys hfound hinj₀)
      obtain ⟨hcross, hpair'⟩ := List.pairwise_cons.1 hpair
      have hother : ∀ e ∈ rest, ∀ i,
          (drainRng decryptTxOutResult b.txResultMap.keys.length rng b).2.txResultMap.lookup
            (e.2.outputAt i) = b.txResultMap.lookup (e.2.outputAt i) := by
        intro e he i
        rw [hlookup, if_neg]
        intro hmem
        obtain ⟨j, -, hj⟩ := List.mem_map.1 hmem
        exact hcross e he j i hj
      have hmem : ∀ e ∈ rest, ∀ i,
          e.2.outputAt i ∈ (drainRng decryptTxOutResult b.txResultMap.keys.length rng b).2.txResultMap ↔
            e.2.outputAt i ∈ b.txResultMap := by
        intro e he i
        rw [← AList.lookup_isSome, ← AList.lookup_isSome, hother e he i]
      have hruns : ∀ e ∈ rest,
          decryptedRun decryptTxOutResult
              (drainRng decryptTxOutResult b.txResultMap.keys.length rng b).2.txResultMap e.2 (a e.1) =
            decryptedRun decryptTxOutResult b.txResultMap e.2 (a e.1) :=
        fun e he => decryptedRun_congr decryptTxOutResult fun i _ => hother e he i
      obtain ⟨hrs, hss, hfs⟩ := drainRngs_spec a
        (b := (drainRng decryptTxOutResult b.txResultMap.keys.length rng b).2)
        (fun e he => by
          simp only [hmem e he]
          exact hrun e (List.mem_cons_of_mem _ he))
        (fun e he => hinj e (List.mem_cons_of_mem _ he)) hpair'
      simp only [drainRngs]
      refine ⟨by rw [hrs, hrng, List.map_cons], ?_, ?_⟩
      · rw [hss, hsucc, List.flatMap_cons, List.append_assoc]
        congr 2
        exact List.flatMap_congr fun e he => by rw [hruns e he]
      · rw [hfs, hfail, List.flatMap_cons, List.append_assoc]
        congr 2
        exact List.flatMap_congr fun e he => by rw [hruns e he]

/-- Ingesting search results leaves the highest processed count alone. -/
@[simp]
theorem highestProcessedBlockCount_ingestTxOutSearchResults (set : UserRngSet prf)
    (results : List TxOutSearchResult) :
    (set.ingestTxOutSearchResults decryptTxOutResult results).1.highestProcessedBlockCount =
      set.highestProcessedBlockCount :=
  rfl

end Match

end UserRngSet

end View
end Fog
