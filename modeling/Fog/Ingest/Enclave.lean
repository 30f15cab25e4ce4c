import Fog.Ingest.RngStore
import Fog.KexRng.Buffered
import Fog.Lib.IndexWalk

/-!
# The ingest enclave

{lit}`SgxIngestEnclave` of {lit}`fog/ingest/enclave/impl/src/lib.rs` turns a
chunk of a block's txos into encrypted rows for the recovery database.  For
every txo it decrypts the fog hint with the ingress key to find the recipient's
view public key {lit}`V`, exchanges keys with the egress key, asks the RNG store
for that user's next search key, and encrypts the txo's record to {lit}`V`.
When the store overflows, the attempt is abandoned: a new egress key is drawn,
announced with the rows as a new {lit}`KexRngPubkey`, the store is cleared,
and the chunk is tried again, at most {lit}`MAX_CHUNK_RETRIES` more times.

The cryptographic functions are the parameters {lean}`Ingest.IngestCrypto`;
the facts the client's agreement rests on are collected in
{lean}`Ingest.IngestCrypto.Ideal`.  The RNG store's oblivious map is a
parameter too, and the results about agreement hold for every map meeting its
contract {lean}`Oram.OMapOps.Lawful`.  Randomness is a tape {lit}`rand` of private
keys with a position in the enclave state: a fresh private key is the next
entry, and a fresh random point is the public key of the next entry.  The
encryption's own randomness is left out (its output is only ever decrypted).
The attestation state and the sealing of keys are left out; a sealed key given
to {lit}`enclave_init` is the initial ingress key.

Each row is returned labelled with the view public key and the chunk position
it was made for (the source's {lit}`decompressed_view_pubkey` and loop index);
the enclave's output is the rows themselves.

Main results:

- Theorem {lit}`Agrees.emit`: emitting a row for a user keeps every user's
  counter equal to the number of that user's rows since the last rotation, and
  their search keys the PRF at 0, 1, ….
- Theorem {lit}`ingestRun_spec`: the run lemma over successful
  {lit}`ingest_txs` calls.
-/

namespace Fog
namespace Ingest

open Oram KexRng

/-- {lit}`MAX_CHUNK_RETRIES`. -/
def maxChunkRetries : Nat := 10

/-- {lit}`TxsForIngest`. -/
structure TxsForIngest (Txo : Type) where
  blockIndex : Nat
  globalTxoIndex : Nat
  redactedTxs : List Txo
  timestamp : Nat

/-- {lit}`FogTxOutMetadata`. -/
structure FogTxOutMetadata where
  globalIndex : Nat
  blockIndex : Nat
  timestamp : Nat
deriving DecidableEq, Repr

/-- {lit}`ETxOutRecord`. -/
structure ETxOutRecord (Payload : Type) where
  searchKey : List UInt8
  payload : Payload

/-- A row the enclave emits, with the view public key and the chunk position it
was made for. -/
structure EmittedRow (Pt Payload : Type) where
  viewPubkey : Pt
  index : Nat
  record : ETxOutRecord Payload

/-- {lit}`Error::ChunkTooBig`, the error {lit}`ingest_txs` returns itself. -/
inductive IngestError
  | chunkTooBig (numTxs maxRetries capacity : Nat)
deriving DecidableEq, Repr

/-- The cryptographic functions the enclave and its clients call. -/
structure IngestCrypto (Sk Pt Txo Plain Payload : Type) where
  /-- {lit}`RistrettoPublic::from`. -/
  pub : Sk → Pt
  /-- The canonical bytes of a point. -/
  compress : Pt → List UInt8
  /-- {lit}`RistrettoPublic::try_from`. -/
  decompress : List UInt8 → Option Pt
  /-- {lit}`key_exchange`, as the bytes of the shared secret. -/
  keyExchange : Sk → Pt → List UInt8
  /-- {lit}`KexRng20201124::prf`. -/
  prf : List UInt8 → UInt64 → List UInt8
  /-- {lit}`FogHint::ct_decrypt` of a txo's hint: the view key bytes when the
  MAC checks, and nothing written otherwise. -/
  ctDecrypt : Sk → Txo → Option (List UInt8)
  /-- The serialized {lit}`TxOutRecord::new(FogTxOut::from(txo), meta)`. -/
  txOutRecord : Txo → FogTxOutMetadata → Plain
  /-- {lit}`VersionedCryptoBox::encrypt` to a public key. -/
  encrypt : Pt → Plain → Payload
  /-- Decryption with a private key. -/
  decrypt : Sk → Payload → Option Plain

/-- The facts about the functions the agreement with the client rests on: the
canonical bytes of a point decode to it; key exchange commutes and, for a fixed
private key, tells public keys apart; a shared secret is never the one byte
string whose flip is the store's reserved key (it is not a point's encoding);
and a payload encrypted to a public key decrypts under its private key. -/
structure IngestCrypto.Ideal {Sk Pt Txo Plain Payload : Type}
    (C : IngestCrypto Sk Pt Txo Plain Payload) : Prop where
  decompress_compress : ∀ p, C.decompress (C.compress p) = some p
  keyExchange_comm : ∀ e v, C.keyExchange e (C.pub v) = C.keyExchange v (C.pub e)
  keyExchange_injective : ∀ e, Function.Injective (C.keyExchange e)
  keyExchange_ne : ∀ e p, C.keyExchange e p ≠ 255 :: List.replicate (rngKeySize - 1) 0
  decrypt_encrypt : ∀ v m, C.decrypt v (C.encrypt (C.pub v) m) = some m

/-- The enclave's state after {lit}`enclave_init`: the two keys, the RNG store,
and how many random values have been drawn. -/
structure IngestEnclave (Sk M : Type) where
  ingressKey : Sk
  egressKey : Sk
  rngStore : RngStore M
  randomDraws : Nat

/-- The calls of the enclave's interface that change its state. -/
inductive IngestEnclaveCall (Sk Txo : Type)
  | ingestTxs (chunk : TxsForIngest Txo)
  | newKeys
  | newEgressKey
  | setIngressPrivateKey (key : Sk)

section Model

variable {Sk Pt Txo Plain Payload : Type} (C : IngestCrypto Sk Pt Txo Plain Payload)
  {M : Type} (ops : OMapOps (List UInt8) UInt64 M) (rand : Nat → Sk)

/-- The {lit}`KexRngPubkey` announcing an egress key. -/
def kexRngPubkey (egressKey : Sk) : KexRngPubkey :=
  ⟨C.compress (C.pub egressKey), versionId⟩

/-- The loop of {lit}`attempt_ingest_txs` from a position of the chunk on: the
rows, or {lean}`none` at the first overflow, with the store and the random
draws after. -/
def attemptLoop (chunk : TxsForIngest Txo) (ingressKey egressKey : Sk) :
    Nat → List Txo → RngStore M → Nat → Option (List (EmittedRow Pt Payload)) × RngStore M × Nat
  | _, [], store, draws => (some [], store, draws)
  | index, txo :: txos, store, draws =>
      -- the user id starts as a fresh random point; a hint whose MAC checks overwrites it
      let userId := (C.ctDecrypt ingressKey txo).getD (C.compress (C.pub (rand draws)))
      match C.decompress userId with
      | none => attemptLoop chunk ingressKey egressKey (index + 1) txos store (draws + 1)
      | some viewPubkey =>
          let next := store.nextRngOutput ops C.prf (C.keyExchange egressKey viewPubkey)
          if next.1 then (none, next.2.2, draws + 1)
          else
            let metadata : FogTxOutMetadata :=
              ⟨chunk.globalTxoIndex + index, chunk.blockIndex, chunk.timestamp⟩
            let row : EmittedRow Pt Payload :=
              ⟨viewPubkey, index, ⟨next.2.1, C.encrypt viewPubkey (C.txOutRecord txo metadata)⟩⟩
            let rest := attemptLoop chunk ingressKey egressKey (index + 1) txos next.2.2 (draws + 1)
            (rest.1.map (row :: ·), rest.2)

/-- {lit}`attempt_ingest_txs`. -/
def attemptIngestTxs (chunk : TxsForIngest Txo) (ingressKey egressKey : Sk) (store : RngStore M)
    (draws : Nat) : Option (List (EmittedRow Pt Payload)) × RngStore M × Nat :=
  attemptLoop C ops rand chunk ingressKey egressKey 0 chunk.redactedTxs store draws

/-- The retry loop of {lit}`ingest_txs`, by the number of retries left: the
result, and the egress key, the store and the random draws after. -/
def ingestLoop (chunk : TxsForIngest Txo) (ingressKey : Sk) :
    Nat → Sk → Option KexRngPubkey → RngStore M → Nat →
      Except IngestError (List (EmittedRow Pt Payload) × Option KexRngPubkey) × Sk × RngStore M × Nat
  | 0, egressKey, newKexRngPubkey, store, draws =>
      match attemptIngestTxs C ops rand chunk ingressKey egressKey store draws with
      | (some rows, store', draws') => (.ok (rows, newKexRngPubkey), egressKey, store', draws')
      | (none, store', draws') =>
          -- the store is returned as the last attempt left it
          (.error (.chunkTooBig chunk.redactedTxs.length maxChunkRetries (store'.capacity ops)),
            egressKey, store', draws')
  | chunkRetries + 1, egressKey, newKexRngPubkey, store, draws =>
      match attemptIngestTxs C ops rand chunk ingressKey egressKey store draws with
      | (some rows, store', draws') => (.ok (rows, newKexRngPubkey), egressKey, store', draws')
      | (none, store', draws') =>
          -- a new egress key, announced with the rows, and an empty store
          ingestLoop chunk ingressKey chunkRetries (rand draws') (some (kexRngPubkey C (rand draws')))
            (store'.clear ops) (draws' + 1)

/-- {lit}`ingest_txs`. -/
def ingestTxs (s : IngestEnclave Sk M) (chunk : TxsForIngest Txo) :
    Except IngestError (List (EmittedRow Pt Payload) × Option KexRngPubkey) × IngestEnclave Sk M :=
  let r := ingestLoop C ops rand chunk s.ingressKey maxChunkRetries s.egressKey none s.rngStore
    s.randomDraws
  (r.1, { s with egressKey := r.2.1, rngStore := r.2.2.1, randomDraws := r.2.2.2 })

/-- {lit}`get_kex_rng_pubkey`. -/
def getKexRngPubkey (s : IngestEnclave Sk M) : KexRngPubkey :=
  kexRngPubkey C s.egressKey

/-- {lit}`SgxIngestEnclave::new` followed by {lit}`enclave_init`: the ingress
key (a fresh one, or the sealed key given), a fresh egress key and an empty
store. -/
def enclaveInit (desiredCapacity : Nat) (sealedKey : Option Sk) : IngestEnclave Sk M :=
  ⟨sealedKey.getD (rand 0), rand 1, RngStore.new ops desiredCapacity, 2⟩

/-- {lit}`new_keys`: fresh ingress and egress keys, and an empty store. -/
def newKeys (s : IngestEnclave Sk M) : IngestEnclave Sk M :=
  ⟨rand s.randomDraws, rand (s.randomDraws + 1), s.rngStore.clear ops, s.randomDraws + 2⟩

/-- {lit}`new_egress_key`: a fresh egress key and an empty store. -/
def newEgressKey (s : IngestEnclave Sk M) : IngestEnclave Sk M :=
  { s with
    egressKey := rand s.randomDraws
    rngStore := s.rngStore.clear ops
    randomDraws := s.randomDraws + 1 }

/-- The state after one call. -/
def call (s : IngestEnclave Sk M) : IngestEnclaveCall Sk Txo → IngestEnclave Sk M
  | .ingestTxs chunk => (ingestTxs C ops rand s chunk).2
  | .newKeys => newKeys ops rand s
  | .newEgressKey => newEgressKey ops rand s
  | .setIngressPrivateKey key => { s with ingressKey := key }

end Model

/-! ## The agreement of the store with the rows emitted -/

section Agreement

variable {Sk Pt Txo Plain Payload : Type} [DecidableEq Pt]
  {C : IngestCrypto Sk Pt Txo Plain Payload} {M : Type} {ops : OMapOps (List UInt8) UInt64 M}
  {content : M → List UInt8 → Option UInt64}

/-- The rows made for a view public key, in emission order. -/
def rowsFor (V : Pt) (rows : List (EmittedRow Pt Payload)) : List (EmittedRow Pt Payload) :=
  rows.filter fun row => decide (row.viewPubkey = V)

/-- A row emitted last is the last of its view key's rows, and of no other's. -/
theorem rowsFor_append_singleton (V : Pt) (rows : List (EmittedRow Pt Payload))
    (row : EmittedRow Pt Payload) :
    rowsFor V (rows ++ [row]) = rowsFor V rows ++ if row.viewPubkey = V then [row] else [] := by
  unfold rowsFor
  rw [List.filter_append]
  by_cases h : row.viewPubkey = V <;> simp [h]

variable (C content) in
/-- The store agrees with the rows emitted under an egress key since it came
into force: every user's counter is the number of that user's rows, and their
search keys are the PRF of the user's shared secret at 0, 1, …. -/
structure Agrees (egressKey : Sk) (store : RngStore M) (rows : List (EmittedRow Pt Payload)) :
    Prop where
  counter_eq : ∀ V, store.counter content (C.keyExchange egressKey V) =
    UInt64.ofNat (rowsFor V rows).length
  searchKeys_eq : ∀ V, (rowsFor V rows).map (fun row => row.record.searchKey) =
    (List.range (rowsFor V rows).length).map fun i =>
      C.prf (C.keyExchange egressKey V) (UInt64.ofNat i)

/-- A cleared store agrees with no rows, under any key. -/
theorem agrees_clear (hmap : ops.Lawful (List.replicate rngKeySize 0) content) (egressKey : Sk)
    (store : RngStore M) :
    Agrees C content egressKey (store.clear ops) ([] : List (EmittedRow Pt Payload)) where
  counter_eq _ := RngStore.counter_clear hmap store _
  searchKeys_eq _ := rfl

/-- A new store agrees with no rows, under any key. -/
theorem agrees_new (hmap : ops.Lawful (List.replicate rngKeySize 0) content) (egressKey : Sk)
    (desiredCapacity : Nat) :
    Agrees C content egressKey (RngStore.new ops desiredCapacity)
      ([] : List (EmittedRow Pt Payload)) where
  counter_eq _ := RngStore.counter_new hmap desiredCapacity _
  searchKeys_eq _ := rfl

/-- Step lemma: a call of {lit}`next_rng_output` for a user that does not
overflow answers the PRF at the user's counter, and the store then agrees with
the rows followed by the row it makes for that user. -/
theorem Agrees.emit (hC : C.Ideal) (hmap : ops.Lawful (List.replicate rngKeySize 0) content)
    {egressKey : Sk} {store store' : RngStore M}
    {rows : List (EmittedRow Pt Payload)} (h : Agrees C content egressKey store rows) {V : Pt}
    {out : List UInt8} (hnext : store.nextRngOutput ops C.prf (C.keyExchange egressKey V) = (false, out, store'))
    (index : Nat) (payload : Payload) :
    Agrees C content egressKey store' (rows ++ [⟨V, index, ⟨out, payload⟩⟩]) := by
  obtain ⟨-, hcases⟩ := store.nextRngOutput_spec hmap C.prf
    (flipFirstByte_ne_zeroKey (hC.keyExchange_ne egressKey V))
  rw [hnext] at hcases
  dsimp only at hcases
  obtain ⟨-, hout, -, hcounter⟩ | ⟨hover, -⟩ := hcases
  · have hsame : ∀ V', C.keyExchange egressKey V' = C.keyExchange egressKey V ↔ V = V' :=
      fun V' => ⟨fun h => ((hC.keyExchange_injective egressKey) h).symm, fun h => h ▸ rfl⟩
    refine ⟨fun V' => ?_, fun V' => ?_⟩
    · rw [hcounter, rowsFor_append_singleton]
      by_cases hV : V = V'
      · subst hV
        rw [if_pos rfl, if_pos rfl, h.counter_eq, List.length_append, List.length_singleton,
          UInt64.ofNat_add, UInt64.ofNat_one]
      · rw [if_neg (mt (hsame V').1 hV), if_neg hV, List.append_nil, h.counter_eq]
    · rw [rowsFor_append_singleton]
      by_cases hV : V = V'
      · subst hV
        rw [if_pos rfl, List.map_append, h.searchKeys_eq, List.length_append,
          List.length_singleton, List.range_succ, List.map_append]
        rw [List.map_singleton, List.map_singleton, hout, h.counter_eq]
      · rw [if_neg hV, List.append_nil]
        exact h.searchKeys_eq V'
  · cases hover

variable (C) in
/-- What a row of a chunk is: made for the txo at its position, its payload
that txo's record encrypted to the row's user, and only for a hint that, when
its MAC checks, decodes to that user. -/
def RowSound (ingressKey : Sk) (chunk : TxsForIngest Txo) (row : EmittedRow Pt Payload) : Prop :=
  ∃ txo, chunk.redactedTxs[row.index]? = some txo ∧
    row.record.payload = C.encrypt row.viewPubkey
      (C.txOutRecord txo ⟨chunk.globalTxoIndex + row.index, chunk.blockIndex, chunk.timestamp⟩) ∧
    ∀ b, C.ctDecrypt ingressKey txo = some b → C.decompress b = some row.viewPubkey

variable (rand : Nat → Sk)

/-- Run lemma of {lit}`attempt_ingest_txs`'s loop: when it gets through the rest
of the chunk, the store agrees with the rows before and the rows it made, and
every row it made is sound.  The induction is on the txos left. -/
theorem attemptLoop_spec (hC : C.Ideal) (hmap : ops.Lawful (List.replicate rngKeySize 0) content)
    (chunk : TxsForIngest Txo) (ingressKey egressKey : Sk) :
    ∀ (txos : List Txo) {index : Nat} {store store' : RngStore M} {draws draws' : Nat}
      {rows rows' : List (EmittedRow Pt Payload)},
      chunk.redactedTxs.drop index = txos → Agrees C content egressKey store rows →
      attemptLoop C ops rand chunk ingressKey egressKey index txos store draws =
        (some rows', store', draws') →
      Agrees C content egressKey store' (rows ++ rows') ∧ ∀ row ∈ rows', RowSound C ingressKey chunk row
  | [], index, store, store', draws, draws', rows, rows', _, hagree, h => by
      simp only [attemptLoop, Prod.mk.injEq, Option.some.injEq] at h
      obtain ⟨rfl, rfl, -⟩ := h
      exact ⟨by rw [List.append_nil]; exact hagree, fun row hrow => by cases hrow⟩
  | txo :: txos, index, store, store', draws, draws', rows, rows', hdrop, hagree, h => by
      have hnext := List.drop_succ_of_drop_eq_cons hdrop
      unfold attemptLoop at h
      cases hdec : C.decompress ((C.ctDecrypt ingressKey txo).getD (C.compress (C.pub (rand draws))))
        with
      | none =>
          simp only [hdec] at h
          exact attemptLoop_spec hC hmap chunk ingressKey egressKey txos hnext hagree h
      | some V =>
          simp only [hdec] at h
          cases hout : store.nextRngOutput ops C.prf (C.keyExchange egressKey V) with
          | mk overflow rest =>
              obtain ⟨out, store₁⟩ := rest
              simp only [hout] at h
              cases overflow with
              | true => simp at h
              | false =>
                  simp only [Bool.false_eq_true, if_false] at h
                  cases hrest : attemptLoop C ops rand chunk ingressKey egressKey (index + 1) txos store₁
                      (draws + 1) with
                  | mk rowsRest after =>
                      rw [hrest] at h
                      cases rowsRest with
                      | none => simp at h
                      | some rows'' =>
                          simp only [Option.map_some, Prod.mk.injEq, Option.some.injEq] at h
                          obtain ⟨rfl, hafter⟩ := h
                          have hagree₁ := hagree.emit hC hmap hout index
                            (C.encrypt V (C.txOutRecord txo
                              ⟨chunk.globalTxoIndex + index, chunk.blockIndex, chunk.timestamp⟩))
                          obtain ⟨hagree', hsound⟩ := attemptLoop_spec hC hmap chunk ingressKey egressKey
                            txos hnext hagree₁ (by rw [hrest, hafter])
                          refine ⟨by rw [← List.singleton_append, ← List.append_assoc]; exact hagree',
                            fun row hrow => ?_⟩
                          rcases List.mem_cons.1 hrow with rfl | hrow
                          · refine ⟨txo, List.getElem?_of_drop_eq_cons hdrop, rfl, fun b hb => ?_⟩
                            rw [hb, Option.getD_some] at hdec
                            exact hdec
                          · exact hsound row hrow

omit [DecidableEq Pt] in
/-- A first attempt that succeeds is the loop's result, whatever the retries
left. -/
theorem ingestLoop_of_attempt_eq_some {chunk : TxsForIngest Txo} {ingressKey egressKey : Sk}
    {store store' : RngStore M} {draws draws' : Nat} {rows : List (EmittedRow Pt Payload)}
    (h : attemptIngestTxs C ops rand chunk ingressKey egressKey store draws =
      (some rows, store', draws')) (chunkRetries : Nat) (newKexRngPubkey : Option KexRngPubkey) :
    ingestLoop C ops rand chunk ingressKey chunkRetries egressKey newKexRngPubkey store draws =
      (.ok (rows, newKexRngPubkey), egressKey, store', draws') := by
  cases chunkRetries <;> simp only [ingestLoop, h]

/-- Run lemma of the retry loop: a successful {lit}`ingest_txs` returns sound
rows and either keeps the egress key and the pubkey it was given, the store
agreeing with the rows before and the new ones, or has rotated to a new egress
key it announces, the store agreeing with the new rows alone.  The induction is
on the retries left. -/
theorem ingestLoop_spec (hC : C.Ideal) (hmap : ops.Lawful (List.replicate rngKeySize 0) content)
    (chunk : TxsForIngest Txo) (ingressKey : Sk) :
    ∀ (chunkRetries : Nat) {egressKey egressKey' : Sk} {newKexRngPubkey : Option KexRngPubkey}
      {store store' : RngStore M} {draws draws' : Nat}
      {rows : List (EmittedRow Pt Payload)}
      {result : List (EmittedRow Pt Payload) × Option KexRngPubkey},
      Agrees C content egressKey store rows →
      ingestLoop C ops rand chunk ingressKey chunkRetries egressKey newKexRngPubkey store draws =
        (.ok result, egressKey', store', draws') →
      (∀ row ∈ result.1, RowSound C ingressKey chunk row) ∧
      ((result.2 = newKexRngPubkey ∧ egressKey' = egressKey ∧
          Agrees C content egressKey' store' (rows ++ result.1)) ∨
        (result.2 = some (kexRngPubkey C egressKey') ∧ Agrees C content egressKey' store' result.1))
  | chunkRetries, egressKey, egressKey', newKexRngPubkey, store, store', draws, draws', rows,
      result, hagree, h => by
      cases hatt : attemptIngestTxs C ops rand chunk ingressKey egressKey store draws with
      | mk attempt after =>
          obtain ⟨store₁, draws₁⟩ := after
          cases attempt with
          | some rows' =>
              rw [ingestLoop_of_attempt_eq_some rand hatt] at h
              simp only [Except.ok.injEq, Prod.mk.injEq] at h
              obtain ⟨rfl, rfl, rfl, rfl⟩ := h
              obtain ⟨hagree', hsound⟩ := attemptLoop_spec rand hC hmap chunk ingressKey egressKey
                chunk.redactedTxs List.drop_zero hagree hatt
              exact ⟨hsound, .inl ⟨rfl, rfl, hagree'⟩⟩
          | none =>
              cases chunkRetries with
              | zero =>
                  unfold ingestLoop at h
                  rw [hatt] at h
                  cases h
              | succ chunkRetries =>
                  unfold ingestLoop at h
                  rw [hatt] at h
                  obtain ⟨hsound, hcases⟩ := ingestLoop_spec hC hmap chunk ingressKey chunkRetries
                    (agrees_clear hmap (rand draws₁) store₁) h
                  refine ⟨hsound, .inr ?_⟩
                  rcases hcases with ⟨hpk, rfl, hagree'⟩ | hrot
                  · exact ⟨hpk, by rw [List.nil_append] at hagree'; exact hagree'⟩
                  · exact hrot

/-! ## Runs of successful calls -/

variable (C ops) in
/-- A run of {lit}`ingest_txs` calls that all return {lit}`Ok`: the state
after, and each call's rows and new pubkey. -/
def ingestRun (s : IngestEnclave Sk M) :
    List (TxsForIngest Txo) →
      Option (IngestEnclave Sk M × List (List (EmittedRow Pt Payload) × Option KexRngPubkey))
  | [] => some (s, [])
  | chunk :: chunks =>
      match ingestTxs C ops rand s chunk with
      | (.ok out, s') => (ingestRun s' chunks).map fun r => (r.1, out :: r.2)
      | (.error _, _) => none

/-- The rows emitted since the pubkey in force came into force: a call that
announces a new pubkey starts them afresh. -/
def rowsSinceRotation (rows : List (EmittedRow Pt Payload))
    (outs : List (List (EmittedRow Pt Payload) × Option KexRngPubkey)) :
    List (EmittedRow Pt Payload) :=
  outs.foldl (fun acc out => if out.2.isSome then out.1 else acc ++ out.1) rows

/-- The pubkey in force after the calls: the last one announced. -/
def pubkeyInForce (pubkey : KexRngPubkey)
    (outs : List (List (EmittedRow Pt Payload) × Option KexRngPubkey)) : KexRngPubkey :=
  outs.foldl (fun pubkey out => out.2.getD pubkey) pubkey

/-- Step lemma of a successful call: the ingress key stays, the rows are sound,
and the store agrees with the rows since the pubkey now in force came into
force, which is the announced one or the old one. -/
theorem ingestTxs_spec (hC : C.Ideal) (hmap : ops.Lawful (List.replicate rngKeySize 0) content)
    {s s' : IngestEnclave Sk M} {chunk : TxsForIngest Txo}
    {rows : List (EmittedRow Pt Payload)}
    {out : List (EmittedRow Pt Payload) × Option KexRngPubkey}
    (hagree : Agrees C content s.egressKey s.rngStore rows) (h : ingestTxs C ops rand s chunk = (.ok out, s')) :
    s'.ingressKey = s.ingressKey ∧ (∀ row ∈ out.1, RowSound C s.ingressKey chunk row) ∧
      Agrees C content s'.egressKey s'.rngStore (if out.2.isSome then out.1 else rows ++ out.1) ∧
      out.2.getD (getKexRngPubkey C s) = getKexRngPubkey C s' := by
  unfold ingestTxs at h
  simp only [Prod.mk.injEq] at h
  obtain ⟨hres, rfl⟩ := h
  obtain ⟨hsound, hcases⟩ := ingestLoop_spec rand hC hmap chunk s.ingressKey maxChunkRetries hagree
    (Prod.ext hres rfl)
  refine ⟨rfl, hsound, ?_⟩
  rcases hcases with ⟨hpk, hkey, hagree'⟩ | ⟨hpk, hagree'⟩
  · rw [hpk]
    exact ⟨hagree', by rw [Option.getD_none, getKexRngPubkey, getKexRngPubkey, hkey]⟩
  · rw [hpk]
    exact ⟨hagree', rfl⟩

/-- Run lemma of successful calls, by induction on the chunks. -/
theorem ingestRun_spec (hC : C.Ideal) (hmap : ops.Lawful (List.replicate rngKeySize 0) content) :
    ∀ (chunks : List (TxsForIngest Txo)) {s s' : IngestEnclave Sk M}
      {outs : List (List (EmittedRow Pt Payload) × Option KexRngPubkey)}
      {rows : List (EmittedRow Pt Payload)},
      Agrees C content s.egressKey s.rngStore rows → ingestRun C ops rand s chunks = some (s', outs) →
      s'.ingressKey = s.ingressKey ∧
      Agrees C content s'.egressKey s'.rngStore (rowsSinceRotation rows outs) ∧
      pubkeyInForce (getKexRngPubkey C s) outs = getKexRngPubkey C s' ∧
      List.Forall₂ (fun chunk out => ∀ row ∈ out.1, RowSound C s.ingressKey chunk row) chunks outs
  | [], s, s', outs, rows, hagree, h => by
      simp only [ingestRun, Option.some.injEq, Prod.mk.injEq] at h
      obtain ⟨rfl, rfl⟩ := h
      exact ⟨rfl, hagree, rfl, .nil⟩
  | chunk :: chunks, s, s', outs, rows, hagree, h => by
      unfold ingestRun at h
      cases hcall : ingestTxs C ops rand s chunk with
      | mk result s₁ =>
          rw [hcall] at h
          cases result with
          | error e => cases h
          | ok out =>
              obtain ⟨r, hr, hout⟩ := Option.map_eq_some_iff.1 h
              obtain ⟨hkey₁, hsound₁, hagree₁, hpk₁⟩ := ingestTxs_spec rand hC hmap hagree hcall
              obtain ⟨hkey, hagree', hpk, hsound⟩ := ingestRun_spec hC hmap chunks hagree₁ hr
              simp only [Prod.mk.injEq] at hout
              obtain ⟨rfl, rfl⟩ := hout
              refine ⟨hkey.trans hkey₁, ?_, ?_, .cons hsound₁ (by rw [← hkey₁]; exact hsound)⟩
              · unfold rowsSinceRotation
                rw [List.foldl_cons]
                exact hagree'
              · unfold pubkeyInForce
                rw [List.foldl_cons, hpk₁]
                exact hpk

/-- Over any run of {lit}`ingest_txs` calls that all return {lit}`Ok`, from an
initialised enclave: for every user key pair {lit}`(v, V)`, the rows emitted for
{lit}`V` since the pubkey in force came into force have, in emission order, the
first outputs of the client's RNG for that pubkey and {lit}`v` as search keys,
and the store's counter for {lit}`V` is their number; every row of a call is
made for the txo at its position, decrypts under {lit}`v` to that txo's record
when made for {lit}`V`, and is made only for a hint that, when its MAC checks,
decodes to its user, so a hint decrypting to a non-point makes no row. -/
theorem ingestTxs_agrees_with_client_rng (hC : C.Ideal)
    (hmap : ops.Lawful (List.replicate rngKeySize 0) content) (desiredCapacity : Nat)
    (sealedKey : Option Sk) (chunks : List (TxsForIngest Txo)) {s : IngestEnclave Sk M}
    {outs : List (List (EmittedRow Pt Payload) × Option KexRngPubkey)}
    (hrun : ingestRun C ops rand (enclaveInit ops rand desiredCapacity sealedKey) chunks = some (s, outs))
    (v : Sk) :
    (∃ rng, tryFromKexPubkey C.prf C.decompress C.keyExchange
        (pubkeyInForce (getKexRngPubkey C (enclaveInit ops rand desiredCapacity sealedKey)) outs) v =
          some rng ∧
      (rowsFor (C.pub v) (rowsSinceRotation [] outs)).map (fun row => row.record.searchKey) =
        BufferedKexRng.takeOutputs (rowsFor (C.pub v) (rowsSinceRotation [] outs)).length rng) ∧
    s.rngStore.counter content (C.keyExchange s.egressKey (C.pub v)) =
      UInt64.ofNat (rowsFor (C.pub v) (rowsSinceRotation [] outs)).length ∧
    List.Forall₂ (fun chunk out => ∀ row ∈ out.1, ∃ txo,
        chunk.redactedTxs[row.index]? = some txo ∧
        (row.viewPubkey = C.pub v → C.decrypt v row.record.payload =
          some (C.txOutRecord txo ⟨chunk.globalTxoIndex + row.index, chunk.blockIndex, chunk.timestamp⟩)) ∧
        ∀ b, C.ctDecrypt s.ingressKey txo = some b → C.decompress b = some row.viewPubkey)
      chunks outs := by
  obtain ⟨hkey, hagree, hpk, hsound⟩ := ingestRun_spec rand hC hmap chunks (agrees_new hmap _ _) hrun
  refine ⟨?_, hagree.counter_eq (C.pub v), ?_⟩
  · have hsecret : C.keyExchange v (C.pub s.egressKey) = C.keyExchange s.egressKey (C.pub v) :=
      (hC.keyExchange_comm s.egressKey v).symm
    refine ⟨BufferedKexRng.fromSecret C.prf (C.keyExchange s.egressKey (C.pub v)), ?_, ?_⟩
    · rw [hpk, getKexRngPubkey, tryFromKexPubkey_eq_some C.prf C.decompress C.keyExchange rfl
        (hC.decompress_compress _), hsecret]
    · rw [BufferedKexRng.takeOutputs_fromSecret]
      exact hagree.searchKeys_eq (C.pub v)
  · refine List.Forall₂.imp (fun chunk out hrows row hrow => ?_) hsound
    obtain ⟨txo, htxo, hpayload, hdecode⟩ := hrows row hrow
    refine ⟨txo, htxo, fun hV => ?_, by rw [hkey]; exact hdecode⟩
    rw [hpayload, hV]
    exact hC.decrypt_encrypt v _

end Agreement

/-- Two users, {lean}`true` and {lean}`false`, each with one private and one
public key: a point is one byte, key exchange gives 1 between a key and itself
and 2 otherwise, and a txo is the bytes its hint decrypts to. -/
def twoUserCrypto :
    IngestCrypto Bool Bool (List UInt8) (List UInt8 × FogTxOutMetadata)
      (Bool × (List UInt8 × FogTxOutMetadata)) where
  pub v := v
  compress p := [if p then 1 else 0]
  decompress b := if b = [1] then some true else if b = [0] then some false else none
  keyExchange e p := [if e = p then 1 else 2]
  prf secret counter := secret ++ [counter.toUInt8]
  ctDecrypt _ txo := some txo
  txOutRecord txo metadata := (txo, metadata)
  encrypt p m := (p, m)
  decrypt v c := if c.1 = v then some c.2 else none

/-- The crypto of the two-user example is ideal. -/
theorem twoUserCrypto_ideal : twoUserCrypto.Ideal where
  decompress_compress p := by cases p <;> rfl
  keyExchange_comm e v := by cases e <;> cases v <;> rfl
  keyExchange_injective e := by
    intro p q h
    cases e <;> cases p <;> cases q <;> first | rfl | cases h
  keyExchange_ne e p := by cases e <;> cases p <;> decide
  decrypt_encrypt v m := if_pos rfl

/-- The bounded association list as the RNG store's map. -/
def boundedRngMap : OMapOps (List UInt8) UInt64 (BoundedMap (List UInt8) UInt64) :=
  boundedOMap (List.replicate rngKeySize 0)

/-- With room for one user: a chunk for the user {lean}`true` (and a malformed
hint), then one for the user {lean}`false`, which overflows the store, rotates
the egress key and is ingested into the cleared store.  The second call
announces the new pubkey, and the rows since then are the one for
{lean}`false`. -/
theorem ingestTxs_agrees_with_client_rng_rotation :
    ∃ s outs, ingestRun twoUserCrypto boundedRngMap (fun _ => false)
        (enclaveInit boundedRngMap (fun _ => false) 1 none)
        [⟨3, 100, [[1], [5], [1]], 0⟩, ⟨4, 103, [[0]], 0⟩] = some (s, outs) ∧
      outs.map (fun out => out.2.isSome) = [false, true] ∧
      s.rngStore.counter (fun m k => m.content.lookup k)
          (twoUserCrypto.keyExchange s.egressKey (twoUserCrypto.pub false)) =
        UInt64.ofNat (rowsFor (twoUserCrypto.pub false) (rowsSinceRotation [] outs)).length ∧
      (rowsFor false (rowsSinceRotation [] outs)).length = 1 ∧
      (rowsFor true (rowsSinceRotation [] outs)).length = 0 := by
  refine ⟨_, _, rfl, rfl, ?_, rfl, rfl⟩
  exact (ingestTxs_agrees_with_client_rng (fun _ => false) twoUserCrypto_ideal
    (lawful_boundedOMap _) 1 none [⟨3, 100, [[1], [5], [1]], 0⟩, ⟨4, 103, [[0]], 0⟩] rfl false).2.1

/-! ## The store after an overflow -/

section Overflow

variable {Sk Pt Txo Plain Payload : Type} {C : IngestCrypto Sk Pt Txo Plain Payload}
  {M : Type} (ops : OMapOps (List UInt8) UInt64 M) (rand : Nat → Sk)

/-- An attempt that fails leaves the store overflowed. -/
theorem attemptLoop_overflowed (chunk : TxsForIngest Txo) (ingressKey egressKey : Sk) :
    ∀ (txos : List Txo) {index draws draws' : Nat} {store store' : RngStore M},
      attemptLoop C ops rand chunk ingressKey egressKey index txos
        store draws = (none, store', draws') → store'.overflowed = true
  | [], _, _, _, _, _, h => by cases h
  | txo :: txos, index, draws, draws', store, store', h => by
      unfold attemptLoop at h
      cases hdec : C.decompress ((C.ctDecrypt ingressKey txo).getD (C.compress (C.pub (rand draws))))
        with
      | none =>
          simp only [hdec] at h
          exact attemptLoop_overflowed chunk ingressKey egressKey txos h
      | some V =>
          simp only [hdec] at h
          cases hout : store.nextRngOutput ops C.prf (C.keyExchange egressKey V) with
          | mk overflow rest =>
              obtain ⟨out, store₁⟩ := rest
              simp only [hout] at h
              cases overflow with
              | true =>
                  simp only [if_true, Prod.mk.injEq] at h
                  obtain ⟨-, rfl, -⟩ := h
                  have hflag : (store.nextRngOutput ops C.prf (C.keyExchange egressKey V)).2.2.overflowed =
                      (store.overflowed || (store.nextRngOutput ops C.prf
                        (C.keyExchange egressKey V)).1) := rfl
                  rw [hout] at hflag
                  simpa using hflag
              | false =>
                  simp only [Bool.false_eq_true, if_false] at h
                  cases hrest : attemptLoop C ops rand chunk ingressKey
                      egressKey (index + 1) txos store₁ (draws + 1) with
                  | mk rowsRest after =>
                      rw [hrest] at h
                      cases rowsRest with
                      | some rows => simp at h
                      | none =>
                          simp only [Option.map_none, Prod.mk.injEq] at h
                          obtain ⟨-, hafter⟩ := h
                          exact attemptLoop_overflowed chunk ingressKey egressKey txos
                            (by rw [hrest, hafter])

/-- A use after an overflow, once recorded, stays recorded through an attempt. -/
theorem attemptLoop_usedAfterOverflow (chunk : TxsForIngest Txo) (ingressKey egressKey : Sk) :
    ∀ (txos : List Txo) {index draws : Nat} {store : RngStore M},
      store.usedAfterOverflow = true →
      (attemptLoop C ops rand chunk ingressKey egressKey index txos
        store draws).2.1.usedAfterOverflow = true
  | [], _, _, _, h => h
  | txo :: txos, index, draws, store, h => by
      unfold attemptLoop
      cases hdec : C.decompress ((C.ctDecrypt ingressKey txo).getD (C.compress (C.pub (rand draws))))
        with
      | none =>
          simp only [hdec]
          exact attemptLoop_usedAfterOverflow chunk ingressKey egressKey txos h
      | some V =>
          have hnext : (store.nextRngOutput ops C.prf (C.keyExchange egressKey V)).2.2.usedAfterOverflow =
              true := by
            rw [RngStore.usedAfterOverflow_nextRngOutput, h, Bool.true_or]
          simp only [hdec]
          split
          · exact hnext
          · exact attemptLoop_usedAfterOverflow chunk ingressKey egressKey txos hnext

/-- An attempt on an overflowed store whose first txo decodes calls
{lit}`next_rng_output` on it. -/
theorem attemptLoop_usedAfterOverflow_of_overflowed (chunk : TxsForIngest Txo)
    (ingressKey egressKey : Sk) {txo : Txo} {txos : List Txo} {index draws : Nat}
    {store : RngStore M} (hover : store.overflowed = true)
    (hdecode : (C.decompress ((C.ctDecrypt ingressKey txo).getD
      (C.compress (C.pub (rand draws))))).isSome) :
    (attemptLoop C ops rand chunk ingressKey egressKey index
      (txo :: txos) store draws).2.1.usedAfterOverflow = true := by
  obtain ⟨V, hV⟩ := Option.isSome_iff_exists.1 hdecode
  have hnext : (store.nextRngOutput ops C.prf (C.keyExchange egressKey V)).2.2.usedAfterOverflow =
      true := by
    rw [RngStore.usedAfterOverflow_nextRngOutput, hover, Bool.or_true]
  unfold attemptLoop
  simp only [hV]
  split
  · exact hnext
  · exact attemptLoop_usedAfterOverflow ops rand chunk ingressKey egressKey txos hnext

/-- A use after an overflow recorded by the loop's first attempt stays recorded
through the retry loop. -/
theorem ingestLoop_usedAfterOverflow (chunk : TxsForIngest Txo) (ingressKey : Sk) :
    ∀ (chunkRetries : Nat) {egressKey : Sk} {newKexRngPubkey : Option KexRngPubkey}
      {store : RngStore M} {draws : Nat},
      (attemptIngestTxs C ops rand chunk ingressKey egressKey store
        draws).2.1.usedAfterOverflow = true →
      (ingestLoop C ops rand chunk ingressKey chunkRetries egressKey
        newKexRngPubkey store draws).2.2.1.usedAfterOverflow = true
  | chunkRetries, egressKey, newKexRngPubkey, store, draws, h => by
      cases chunkRetries with
      | zero =>
          unfold ingestLoop
          split <;> simpa [*] using h
      | succ chunkRetries =>
          unfold ingestLoop
          split
          · simpa [*] using h
          · rename_i store₁ draws₁ hatt
            rw [hatt] at h
            exact ingestLoop_usedAfterOverflow chunk ingressKey chunkRetries
              (attemptLoop_usedAfterOverflow ops rand chunk ingressKey _ chunk.redactedTxs h)

/-- When the retry loop gives up, the store is left as the last attempt left
it, overflowed. -/
theorem ingestLoop_error_overflowed (chunk : TxsForIngest Txo) (ingressKey : Sk) :
    ∀ (chunkRetries : Nat) {egressKey egressKey' : Sk} {newKexRngPubkey : Option KexRngPubkey}
      {store store' : RngStore M} {draws draws' : Nat} {e : IngestError},
      ingestLoop C ops rand chunk ingressKey chunkRetries egressKey
        newKexRngPubkey store draws = (.error e, egressKey', store', draws') →
      store'.overflowed = true
  | chunkRetries, egressKey, egressKey', newKexRngPubkey, store, store', draws, draws', e, h => by
      cases hatt : attemptIngestTxs C ops rand chunk ingressKey egressKey store draws with
      | mk attempt after =>
          obtain ⟨store₁, draws₁⟩ := after
          cases attempt with
          | some rows =>
              rw [ingestLoop_of_attempt_eq_some rand hatt] at h
              cases h
          | none =>
              cases chunkRetries with
              | zero =>
                  unfold ingestLoop at h
                  rw [hatt] at h
                  simp only [Prod.mk.injEq] at h
                  obtain ⟨-, -, rfl, -⟩ := h
                  exact attemptLoop_overflowed ops rand chunk ingressKey egressKey _ hatt
              | succ chunkRetries =>
                  unfold ingestLoop at h
                  rw [hatt] at h
                  exact ingestLoop_error_overflowed chunk ingressKey chunkRetries h

/-- After {lit}`ingest_txs` gives up on a chunk with {lit}`ChunkTooBig`, the
store is left overflowed and not cleared, and the next {lit}`ingest_txs` whose
first txo's hint decodes (a hint whose MAC checks and decodes, or one whose MAC
fails, which yields a fresh random point) calls {lit}`next_rng_output` on it. -/
theorem ingestTxs_after_chunkTooBig_uses_overflowed_store
    (hdecode : ∀ p, C.decompress (C.compress p) = some p) {s : IngestEnclave Sk M}
    {chunk chunk' : TxsForIngest Txo} {e : IngestError}
    (herr : (ingestTxs C ops rand s chunk).1 = .error e) {txo : Txo}
    {txos : List Txo} (hfirst : chunk'.redactedTxs = txo :: txos)
    (hhint : ∀ b, C.ctDecrypt s.ingressKey txo = some b → (C.decompress b).isSome) :
    (ingestTxs C ops rand s chunk).2.rngStore.overflowed = true ∧
    (ingestTxs C ops rand
      (ingestTxs C ops rand s chunk).2 chunk').2.rngStore.usedAfterOverflow =
        true := by
  set s₁ := (ingestTxs C ops rand s chunk).2 with hs₁
  have hover : s₁.rngStore.overflowed = true := by
    unfold ingestTxs at herr hs₁
    exact ingestLoop_error_overflowed ops rand chunk s.ingressKey maxChunkRetries
      (Prod.ext herr rfl)
  refine ⟨hover, ?_⟩
  have hfirstDecodes : (C.decompress ((C.ctDecrypt s₁.ingressKey txo).getD
      (C.compress (C.pub (rand s₁.randomDraws))))).isSome := by
    cases hct : C.ctDecrypt s₁.ingressKey txo with
    | none => rw [Option.getD_none, hdecode]; rfl
    | some b => exact hhint b hct
  unfold ingestTxs
  apply ingestLoop_usedAfterOverflow
  unfold attemptIngestTxs
  rw [hfirst]
  exact attemptLoop_usedAfterOverflow_of_overflowed ops rand chunk' s₁.ingressKey s₁.egressKey hover
    hfirstDecodes

end Overflow

/-- With the bounded association list as the map and room for one user, a chunk
for two users overflows on every attempt and is given up; the next chunk's
first txo then reaches the overflowed store. -/
theorem ingestTxs_after_chunkTooBig_uses_overflowed_store_capacityOne :
    (ingestTxs twoUserCrypto boundedRngMap (fun _ => false)
        (enclaveInit boundedRngMap (fun _ => false) 1 none) ⟨0, 0, [[1], [0]], 0⟩).1 =
      .error (.chunkTooBig 2 10 1) ∧
    (ingestTxs twoUserCrypto boundedRngMap (fun _ => false)
        (ingestTxs twoUserCrypto boundedRngMap (fun _ => false)
          (enclaveInit boundedRngMap (fun _ => false) 1 none) ⟨0, 0, [[1], [0]], 0⟩).2
        ⟨1, 2, [[1]], 0⟩).2.rngStore.usedAfterOverflow = true := by
  have herr : (ingestTxs twoUserCrypto boundedRngMap (fun _ => false)
      (enclaveInit boundedRngMap (fun _ => false) 1 none) ⟨0, 0, [[1], [0]], 0⟩).1 =
        .error (.chunkTooBig 2 10 1) := rfl
  refine ⟨herr, (ingestTxs_after_chunkTooBig_uses_overflowed_store boundedRngMap (fun _ => false)
    twoUserCrypto_ideal.decompress_compress herr rfl fun b hb => ?_).2⟩
  cases hb
  rfl

end Ingest
end Fog
