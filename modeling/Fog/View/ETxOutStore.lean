import Fog.Oram.OMap
import Fog.Lib.Except

/-!
# The view enclave's record store

{lit}`ETxOutStore` of {lit}`fog/view/enclave/impl/src/e_tx_out_store.rs` keeps
the encrypted tx out records in an oblivious map from 16-byte search keys to
240-byte values.  A value is a size byte, {lit}`239 - len`, then the ciphertext
of length {lit}`len`, then zeros.  A lookup that misses still answers a
ciphertext of the usual size: the store remembers the size byte of the last
ciphertext it stored and pads the answer to that length.

The enclave's {lit}`add_records` stores a batch of records, stopping at the
first failure; {lit}`query` answers one search result per requested key.

Byte strings are lists of {lean}`UInt8`.  The map is a parameter, and the
results hold for every map meeting the contract {lean}`Oram.OMapOps.Lawful` with
the reserved key of 16 zero bytes: a record under that key is refused and a
search for it answers {lit}`BadSearchKey`.  A
{lit}`usize` subtraction that would underflow is a panic, {lean}`none`; the
invariant {lean}`ETxOutStore.Inv` rules it out.

Main results:

- Theorem {lit}`ETxOutStore.Inv.addRecord`: every call of {lit}`add_record`,
  failed ones included, keeps the invariant.
- Theorem {lit}`ETxOutStore.addRecords_spec`: after a successful batch every
  key holds the value of its last record, and the size byte is that of the last
  record.
- Theorem {lit}`ETxOutStore.findRecord_after_addRecords`: what a search answers
  after any sequence of successful additions.
-/

namespace Fog
namespace View

open Oram

/-- {lit}`KeySize`. -/
def keySize : Nat := 16

/-- {lit}`ValueSize`. -/
def valueSize : Nat := 240

/-- {lit}`TxOutSearchResultCode`. -/
inductive TxOutSearchResultCode
  | found
  | notFound
  | badSearchKey
  | internalError
  | rateLimited
deriving DecidableEq, Repr

/-- {lit}`TxOutSearchResult`. -/
structure TxOutSearchResult where
  searchKey : List UInt8
  resultCode : TxOutSearchResultCode
  ciphertext : List UInt8
deriving DecidableEq, Repr

/-- {lit}`AddRecordsError`. -/
inductive AddRecordsError
  | keyWrongSize
  | keyRejected
  | valueTooLarge
  | valueWrongSize
  | mapOverflow (len capacity : Nat)
deriving DecidableEq, Repr

/-- {lit}`ETxOutStore`, over the states {lit}`M` of its oblivious map: the map
and the size byte of the last ciphertext stored. -/
structure ETxOutStore (M : Type) where
  omap : M
  lastCiphertextSizeByte : UInt8

namespace ETxOutStore

variable {M : Type} (ops : OMapOps (List UInt8) (List UInt8) M)

/-- {lit}`ETxOutStore::new`, with the capacity the map is created with. -/
def new (capacity : Nat) : ETxOutStore M :=
  ⟨ops.create capacity, 0⟩

/-- The size byte {lit}`add_record` writes for a ciphertext:
{lit}`ValueSize - 1 - ciphertext.len()`. -/
def sizeByteOf (ciphertext : List UInt8) : UInt8 :=
  UInt8.ofNat (valueSize - 1 - ciphertext.length)

/-- The value {lit}`add_record` stores: the size byte, the ciphertext from index
1 to {lit}`ValueSize - value[0]`, and zeros after it. -/
def encodeValue (ciphertext : List UInt8) : List UInt8 :=
  sizeByteOf ciphertext :: ciphertext ++ List.replicate (valueSize - 1 - ciphertext.length) 0

/-- {lit}`add_record`.  The size byte is recorded before the map is written, so
a write the map refuses still changes it. -/
def addRecord (s : ETxOutStore M) (searchKey ciphertext : List UInt8) :
    ETxOutStore M × Except AddRecordsError Unit :=
  if searchKey.length ≠ keySize then (s, .error .keyWrongSize)
  else if valueSize - 1 < ciphertext.length then (s, .error .valueTooLarge)
  -- {lit}`ValueSize.saturating_sub(256)` is 0, so this check never fails
  else if ciphertext.length < valueSize - 256 then (s, .error .valueWrongSize)
  else
    let write := ops.vartimeWrite s.omap searchKey (encodeValue ciphertext) true
    let s' : ETxOutStore M := ⟨write.2, sizeByteOf ciphertext⟩
    match write.1 with
    | .invalidKey => (s', .error .keyRejected)
    | .overflow => (s', .error (.mapOverflow (ops.len s'.omap) (ops.capacity s'.omap)))
    | .found => (s', .ok ())
    | .notFound => (s', .ok ())

/-- The result code {lit}`find_record` sets from the map's: the three
conditional moves, from {lit}`InternalError`. -/
def searchResultCode : OMapResultCode → TxOutSearchResultCode
  | .found => .found
  | .notFound => .notFound
  | .invalidKey => .badSearchKey
  | .overflow => .internalError

/-- {lit}`find_record`.  The buffer given to the map holds the last size byte
and zeros; the answer is the part of the buffer its size byte delimits. -/
def findRecord (s : ETxOutStore M) (searchKey : List UInt8) : Option TxOutSearchResult :=
  -- {lit}`ValueSize - 1 - last_ciphertext_size_byte` would underflow
  if valueSize - 1 < s.lastCiphertextSizeByte.toNat then none
  else
    let result : TxOutSearchResult :=
      ⟨searchKey, .internalError,
        List.replicate (valueSize - 1 - s.lastCiphertextSizeByte.toNat) 0⟩
    if searchKey.length ≠ keySize then some { result with resultCode := .badSearchKey }
    else
      let read := ops.read s.omap searchKey
        (s.lastCiphertextSizeByte :: List.replicate (valueSize - 1) 0)
      let sizeByte := (read.2.headD 0).toNat
      if valueSize - 1 < sizeByte then none
      else
        some { result with
          resultCode := searchResultCode read.1
          ciphertext := (read.2.drop 1).take (valueSize - 1 - sizeByte) }

/-- {lit}`ViewEnclave::add_records`: add the records in order, stopping at the
first error; the records before it stay added. -/
def addRecords (s : ETxOutStore M) :
    List (List UInt8 × List UInt8) → ETxOutStore M × Except AddRecordsError Unit
  | [] => (s, .ok ())
  | (searchKey, payload) :: records =>
      match s.addRecord ops searchKey payload with
      | (s', .ok ()) => addRecords s' records
      | (s', .error e) => (s', .error e)

/-- The search results of {lit}`ViewEnclave::query`, one per requested key. -/
def queryTxOutSearchResults (s : ETxOutStore M) (getTxos : List (List UInt8)) :
    Option (List TxOutSearchResult) :=
  getTxos.mapM (s.findRecord ops)

/-! ## The stored values -/

/-- The size byte counts the unused bytes of a value: the room after the byte
itself and the ciphertext. -/
theorem toNat_sizeByteOf (ciphertext : List UInt8) :
    (sizeByteOf ciphertext).toNat = valueSize - 1 - ciphertext.length := by
  unfold sizeByteOf
  apply UInt8.toNat_ofNat_of_lt'
  change valueSize - 1 - ciphertext.length < 256
  unfold valueSize
  omega

/-- A stored value starts with its size byte. -/
theorem headD_encodeValue (ciphertext : List UInt8) :
    (encodeValue ciphertext).headD 0 = sizeByteOf ciphertext :=
  rfl

/-- The part of a stored value its size byte delimits is the ciphertext. -/
theorem take_drop_encodeValue {ciphertext : List UInt8} (h : ciphertext.length ≤ valueSize - 1) :
    ((encodeValue ciphertext).drop 1).take (valueSize - 1 - (sizeByteOf ciphertext).toNat) =
      ciphertext := by
  rw [toNat_sizeByteOf ciphertext, Nat.sub_sub_self h]
  simp [encodeValue]

/-! ## The invariant -/

variable {ops} {content : M → List UInt8 → Option (List UInt8)}

variable (content) in
/-- What every reachable store satisfies: the size byte delimits a ciphertext
within a value, and every stored value is the encoding of a ciphertext that
fits. -/
structure Inv (s : ETxOutStore M) : Prop where
  sizeByte_le : s.lastCiphertextSizeByte.toNat ≤ valueSize - 1
  stored : ∀ k v, content s.omap k = some v → ∃ c, c.length ≤ valueSize - 1 ∧ v = encodeValue c

section Lawful

variable (hmap : ops.Lawful (List.replicate keySize 0) content)
include hmap

/-- The fresh store satisfies the invariant at every capacity. -/
theorem inv_new (capacity : Nat) : Inv content (new ops capacity) where
  sizeByte_le := Nat.zero_le _
  stored k v h := by
    rw [new, hmap.content_create] at h
    cases h

omit hmap in
/-- A call of {lit}`add_record` that passes the size checks leaves the map the
write leaves and the new size byte, whatever the write answers. -/
theorem addRecord_fst_of_checks (s : ETxOutStore M) {searchKey ciphertext : List UInt8}
    (hkey : searchKey.length = keySize) (hlen : ciphertext.length ≤ valueSize - 1) :
    (s.addRecord ops searchKey ciphertext).1 =
      ⟨(ops.vartimeWrite s.omap searchKey (encodeValue ciphertext) true).2,
        sizeByteOf ciphertext⟩ := by
  unfold addRecord
  rw [if_neg (not_not.2 hkey), if_neg (Nat.not_lt_of_le hlen),
    if_neg (by unfold valueSize; omega)]
  dsimp only
  split <;> rfl

/-- A successful call of {lit}`add_record` passed the size checks and stored
the encoded ciphertext at its key, which is not the reserved key, and nothing
else. -/
theorem addRecord_eq_ok {s s' : ETxOutStore M} {searchKey ciphertext : List UInt8}
    (h : s.addRecord ops searchKey ciphertext = (s', .ok ())) :
    searchKey.length = keySize ∧ ciphertext.length ≤ valueSize - 1 ∧
      searchKey ≠ List.replicate keySize 0 ∧
      s'.lastCiphertextSizeByte = sizeByteOf ciphertext ∧
      ∀ k, content s'.omap k =
        if k = searchKey then some (encodeValue ciphertext) else content s.omap k := by
  unfold addRecord at h
  by_cases hkey : searchKey.length ≠ keySize
  · rw [if_pos hkey] at h
    cases h
  rw [if_neg hkey] at h
  by_cases hlen : valueSize - 1 < ciphertext.length
  · rw [if_pos hlen] at h
    cases h
  rw [if_neg hlen, if_neg (by unfold valueSize; omega)] at h
  rcases hw : ops.vartimeWrite s.omap searchKey (encodeValue ciphertext) true with ⟨code, m'⟩
  rw [hw] at h
  rcases hmap.vartimeWrite_cases hw with ⟨-, rfl, -⟩ | ⟨-, rfl, -⟩ | ⟨hzero, hcode, hcontent⟩
  · cases h
  · cases h
  · rcases hcode with rfl | rfl <;>
    · cases h
      exact ⟨Decidable.of_not_not hkey, Nat.le_of_not_lt hlen, hzero, rfl, hcontent⟩

/-- Every call of {lit}`add_record` keeps the invariant, failed ones included:
a write of the reserved key leaves the map, an overflow keeps only entries
stored before and the new encoding, and the size byte recorded is that of a
ciphertext that fits. -/
theorem Inv.addRecord {s : ETxOutStore M} (hs : Inv content s) (searchKey ciphertext : List UInt8) :
    Inv content (s.addRecord ops searchKey ciphertext).1 := by
  by_cases hkey : searchKey.length = keySize
  swap
  · unfold ETxOutStore.addRecord
    rw [if_pos hkey]
    exact hs
  by_cases hlen : ciphertext.length ≤ valueSize - 1
  swap
  · unfold ETxOutStore.addRecord
    rw [if_neg (not_not.2 hkey), if_pos (Nat.lt_of_not_le hlen)]
    exact hs
  rw [addRecord_fst_of_checks s hkey hlen]
  have hbyte : (sizeByteOf ciphertext).toNat ≤ valueSize - 1 := by
    rw [toNat_sizeByteOf ciphertext]
    exact Nat.sub_le _ _
  have hnew : ∃ c, c.length ≤ valueSize - 1 ∧ encodeValue ciphertext = encodeValue c :=
    ⟨ciphertext, hlen, rfl⟩
  refine ⟨hbyte, ?_⟩
  rcases hw : ops.vartimeWrite s.omap searchKey (encodeValue ciphertext) true with ⟨code, m'⟩
  rcases hmap.vartimeWrite_cases hw with ⟨-, -, rfl⟩ | ⟨-, -, hkept⟩ | ⟨-, -, hcontent⟩
  · exact hs.stored
  · exact hkept.keep (P := fun _ v => ∃ c, c.length ≤ valueSize - 1 ∧ v = encodeValue c)
      hs.stored hnew
  · intro k v hk
    rw [hcontent k] at hk
    split at hk
    · rw [← Option.some.inj hk]
      exact hnew
    · exact hs.stored k v hk

end Lawful

/-! ## Searches -/

/-- A key of the wrong length is answered {lit}`BadSearchKey`, padded to the
last ciphertext's length. -/
theorem findRecord_of_length_ne {s : ETxOutStore M} (hs : Inv content s) {searchKey : List UInt8}
    (hlen : searchKey.length ≠ keySize) :
    s.findRecord ops searchKey =
      some ⟨searchKey, .badSearchKey,
        List.replicate (valueSize - 1 - s.lastCiphertextSizeByte.toNat) 0⟩ := by
  unfold findRecord
  rw [if_neg (Nat.not_lt_of_le hs.sizeByte_le), if_pos hlen]

/-- The buffer a search starts from delimits the padding of the last
ciphertext's length. -/
theorem take_drop_searchBuffer (b : UInt8) :
    ((b :: List.replicate (valueSize - 1) 0).drop 1).take (valueSize - 1 - b.toNat) =
      List.replicate (valueSize - 1 - b.toNat) 0 := by
  rw [List.drop_one, List.tail_cons, List.take_replicate, Nat.min_eq_left (Nat.sub_le _ _)]

/-- A search for a key of the right length reads the map: a stored value gives
{lit}`Found` and its ciphertext, and a miss or the reserved key leaves the
buffer, hence the padding. -/
theorem findRecord_of_length_eq (hmap : ops.Lawful (List.replicate keySize 0) content)
    {s : ETxOutStore M} (hs : Inv content s) {searchKey : List UInt8}
    (hlen : searchKey.length = keySize) :
    s.findRecord ops searchKey =
      if searchKey = List.replicate keySize 0 then
        some ⟨searchKey, .badSearchKey,
          List.replicate (valueSize - 1 - s.lastCiphertextSizeByte.toNat) 0⟩
      else match content s.omap searchKey with
        | some v => some ⟨searchKey, .found,
            (v.drop 1).take (valueSize - 1 - (v.headD 0).toNat)⟩
        | none => some ⟨searchKey, .notFound,
            List.replicate (valueSize - 1 - s.lastCiphertextSizeByte.toNat) 0⟩ := by
  unfold findRecord
  rw [if_neg (Nat.not_lt_of_le hs.sizeByte_le), if_neg (not_not.2 hlen), hmap.read_eq]
  have hbuf := take_drop_searchBuffer s.lastCiphertextSizeByte
  by_cases hzero : searchKey = List.replicate keySize 0
  · simp only [if_pos hzero, List.headD_cons, if_neg (Nat.not_lt_of_le hs.sizeByte_le), hbuf]
    rfl
  · simp only [if_neg hzero]
    cases hlookup : content s.omap searchKey with
    | none =>
        simp only [Option.elim, List.headD_cons, if_neg (Nat.not_lt_of_le hs.sizeByte_le), hbuf]
        rfl
    | some v =>
        obtain ⟨c, hc, rfl⟩ := hs.stored searchKey v hlookup
        have hbyte : ¬valueSize - 1 < ((encodeValue c).headD 0).toNat := by
          rw [headD_encodeValue, toNat_sizeByteOf c]
          omega
        simp only [Option.elim, hbyte, if_false]
        rfl

/-! ## Runs of additions -/

/-- The ciphertext of the last record for a key. -/
def lastAdded (k : List UInt8) : List (List UInt8 × List UInt8) → Option (List UInt8)
  | [] => none
  | (k', c) :: records => (lastAdded k records).or (if k' = k then some c else none)

/-- A key's last ciphertext is one of its records. -/
theorem mem_of_lastAdded {k c : List UInt8} :
    ∀ {records : List (List UInt8 × List UInt8)}, lastAdded k records = some c → (k, c) ∈ records
  | [], h => by cases h
  | (k', c') :: records, h => by
      rw [lastAdded] at h
      cases hrest : lastAdded k records with
      | some c'' =>
          rw [hrest, Option.some_or] at h
          cases h
          exact List.mem_cons_of_mem _ (mem_of_lastAdded hrest)
      | none =>
          rw [hrest, Option.none_or] at h
          split at h
          · rename_i hk
            cases h
            rw [hk]
            exact List.mem_cons_self
          · cases h

/-- The length of the last ciphertext added, {lit}`ValueSize - 1` if none was. -/
def lastCiphertextLength (records : List (List UInt8 × List UInt8)) : Nat :=
  (records.getLast?.map fun r => r.2.length).getD (valueSize - 1)

/-- Run lemma of {lit}`add_records`: a successful batch keeps the invariant,
adds only records that pass the checks and are not under the reserved key,
leaves every key with the value of its last record (or its old value), and
the size byte of the last record. -/
theorem addRecords_spec (hmap : ops.Lawful (List.replicate keySize 0) content) :
    ∀ (records : List (List UInt8 × List UInt8)) {s s' : ETxOutStore M}, Inv content s →
      s.addRecords ops records = (s', .ok ()) →
      Inv content s' ∧ (∀ r ∈ records, r.1.length = keySize ∧ r.2.length ≤ valueSize - 1 ∧
        r.1 ≠ List.replicate keySize 0) ∧
      (∀ k, content s'.omap k = ((lastAdded k records).map encodeValue).or (content s.omap k)) ∧
      s'.lastCiphertextSizeByte =
        (records.getLast?.map fun r => sizeByteOf r.2).getD s.lastCiphertextSizeByte
  | [], s, s', hs, h => by
      cases h
      exact ⟨hs, fun r hr => (by cases hr), fun k => rfl, rfl⟩
  | (searchKey, payload) :: records, s, s', hs, h => by
      unfold addRecords at h
      cases hadd : s.addRecord ops searchKey payload with
      | mk s₁ r =>
          rw [hadd] at h
          cases r with
          | error e => cases h
          | ok u =>
              obtain ⟨hkey, hfit, hzero, hbyte₁, hlookup₁⟩ := addRecord_eq_ok hmap hadd
              have hs₁ : Inv content s₁ := by
                have := hs.addRecord hmap searchKey payload
                rw [hadd] at this
                exact this
              obtain ⟨hs', hrecords, hlookup, hbyte⟩ := addRecords_spec hmap records hs₁ h
              refine ⟨hs', fun r hr => ?_, fun k => ?_, ?_⟩
              · rcases List.mem_cons.1 hr with rfl | hr
                · exact ⟨hkey, hfit, hzero⟩
                · exact hrecords r hr
              · rw [hlookup k, hlookup₁ k, lastAdded]
                by_cases hk : k = searchKey
                · cases lastAdded k records <;> simp [hk]
                · have hk' : ¬searchKey = k := fun h => hk h.symm
                  cases lastAdded k records <;> simp [hk, hk']
              · rw [hbyte, hbyte₁, List.getLast?_cons]
                cases records.getLast? <;> rfl

/-- What a search answers after any sequence of successful additions to a new
store, over any map meeting the contract: the last ciphertext added for a key
added; for a 16-byte key never added, other than the all-zero key,
{lit}`NotFound` and zeros of the length of the last ciphertext added (239 if
none was); and {lit}`BadSearchKey` with the same zeros for a key of the wrong
length and for the all-zero key, which the map reserves and no addition
stores. -/
theorem findRecord_after_addRecords (hmap : ops.Lawful (List.replicate keySize 0) content)
    (capacity : Nat) (records : List (List UInt8 × List UInt8)) {s : ETxOutStore M}
    (hadd : (new ops capacity).addRecords ops records = (s, .ok ())) (k : List UInt8) :
    (∀ c, lastAdded k records = some c → s.findRecord ops k = some ⟨k, .found, c⟩) ∧
    (lastAdded k records = none → k.length = keySize → k ≠ List.replicate keySize 0 →
      s.findRecord ops k =
        some ⟨k, .notFound, List.replicate (lastCiphertextLength records) 0⟩) ∧
    (k.length ≠ keySize →
      s.findRecord ops k =
        some ⟨k, .badSearchKey, List.replicate (lastCiphertextLength records) 0⟩) ∧
    s.findRecord ops (List.replicate keySize 0) =
      some ⟨List.replicate keySize 0, .badSearchKey,
        List.replicate (lastCiphertextLength records) 0⟩ := by
  obtain ⟨hs, hrecords, hlookup, hbyte⟩ :=
    addRecords_spec hmap records (inv_new hmap capacity) hadd
  have hpad : valueSize - 1 - s.lastCiphertextSizeByte.toNat = lastCiphertextLength records := by
    rw [hbyte, lastCiphertextLength]
    cases hlast : records.getLast? with
    | none => rfl
    | some r =>
        have hfit := (hrecords r (List.mem_of_getLast? hlast)).2.1
        simp only [Option.map_some, Option.getD_some]
        rw [toNat_sizeByteOf, Nat.sub_sub_self hfit]
  have hstored : ∀ k, content s.omap k = (lastAdded k records).map encodeValue := by
    intro k
    rw [hlookup k, new, hmap.content_create, Option.or_none]
  refine ⟨fun c hc => ?_, fun hnone hlen hne => ?_, fun hlen => ?_, ?_⟩
  · obtain ⟨hklen, hcfit, hne⟩ := hrecords (k, c) (mem_of_lastAdded hc)
    have hlookupk : content s.omap k = some (encodeValue c) := by
      rw [hstored k, hc, Option.map_some]
    rw [findRecord_of_length_eq hmap hs hklen, if_neg hne, hlookupk]
    simp only [headD_encodeValue, take_drop_encodeValue hcfit]
  · have hlookupk : content s.omap k = none := by
      rw [hstored k, hnone, Option.map_none]
    rw [findRecord_of_length_eq hmap hs hlen, if_neg hne, hlookupk, hpad]
  · rw [findRecord_of_length_ne hs hlen, hpad]
  · rw [findRecord_of_length_eq hmap hs List.length_replicate, if_pos rfl, hpad]

/-- The bounded association list as the record store's map. -/
def boundedRecordMap : OMapOps (List UInt8) (List UInt8) (BoundedMap (List UInt8) (List UInt8)) :=
  boundedOMap (List.replicate keySize 0)

/-- Two records for one key added to a new store: a search for the key finds
the ciphertext of the second. -/
theorem findRecord_after_addRecords_sameKey :
    (new boundedRecordMap 4).addRecords boundedRecordMap
        [(List.replicate 16 1, [7]), (List.replicate 16 1, [8, 9])] =
      (((new boundedRecordMap 4).addRecords boundedRecordMap
        [(List.replicate 16 1, [7]), (List.replicate 16 1, [8, 9])]).1, .ok ()) ∧
      ((new boundedRecordMap 4).addRecords boundedRecordMap
          [(List.replicate 16 1, [7]), (List.replicate 16 1, [8, 9])]).1.findRecord
          boundedRecordMap (List.replicate 16 1) =
        some ⟨List.replicate 16 1, .found, [8, 9]⟩ := by
  have hadd : (new boundedRecordMap 4).addRecords boundedRecordMap
      [(List.replicate 16 1, [7]), (List.replicate 16 1, [8, 9])] =
      (((new boundedRecordMap 4).addRecords boundedRecordMap
        [(List.replicate 16 1, [7]), (List.replicate 16 1, [8, 9])]).1, .ok ()) := rfl
  exact ⟨hadd,
    (findRecord_after_addRecords (lawful_boundedOMap _) 4 _ hadd (List.replicate 16 1)).1 [8, 9] rfl⟩

/-- The all-zero key, never added, is answered {lit}`BadSearchKey` and not
{lit}`NotFound`: the map reserves it. -/
theorem findRecord_zeroKey_badSearchKey :
    ∃ s, (new boundedRecordMap 4).addRecords boundedRecordMap [(List.replicate 16 1, [7])] =
        (s, .ok ()) ∧
      lastAdded (List.replicate 16 0) [(List.replicate 16 1, [7])] = none ∧
      s.findRecord boundedRecordMap (List.replicate 16 0) =
        some ⟨List.replicate 16 0, .badSearchKey, [0]⟩ :=
  ⟨_, rfl, rfl, rfl⟩

end ETxOutStore

end View
end Fog
