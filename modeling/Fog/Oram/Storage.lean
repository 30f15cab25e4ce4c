import Fog.Lib.TreeIndex
import Fog.Lib.Store

/-!
# The OCALL-backed ORAM storage

{lit}`fog/ocall_oram_storage` stores the nodes of an ORAM tree (a data block
and a metadata block per node, in heap order) for an enclave.  The top of the
tree, the nodes below {lit}`treetop_max_count`, stays in enclave memory
({lit}`HeapORAMStorage`); the rest is kept by the untrusted host, encrypted,
and is authenticated when it comes back.  Every node kept by the host carries
an extended metadata block ({lit}`ExtraMeta`): a counter bumped at every
check-in, which with the node's index is the AES-CTR nonce, and the hashes of
its two children, so that the hashes chain up every path.

This module is the faithful model of {lit}`trusted/src/lib.rs`,
{lit}`trusted/src/extra_meta.rs` and the two host calls of
{lit}`untrusted/src/lib.rs`:

- {lean}`OcallORAMStorage.checkout` and {lean}`OcallORAMStorage.checkin`, with
  the loops over the host's part of the path written as the recursive
  {lean}`OcallORAMStorage.checkoutLoop` and {lean}`OcallORAMStorage.checkinLoop`;
  every {lit}`assert!`, {lit}`expect` and authentication {lit}`panic!` is a
  {lean}`none`.
- The host's allocation is a map from shifted index to the data and the
  metadata-plus-extended-metadata bytes it stores; the enclave sees whatever the
  host writes into its buffers, which {lean}`OcallORAMStorage.checkout` takes as
  an argument.
- {lit}`HeapORAMStorage` (an external crate) is a map from index to data and
  metadata, initially zero.

Modelling choices.  Byte arrays are values of arbitrary types with
{lit}`default` the all-zero array; {lit}`ExtraMeta` is a structure, which its
byte encoding represents one to one.  The AES key and the hash key are drawn
once at construction and never change, so AES-CTR and {lit}`compute_block_hash`
under them are two fixed functions, {lean}`OramCrypto`.  The path of an index
comes from the external {lit}`balanced-tree-index` crate; it is a parameter
{lit}`parents`, whose contract {lean}`TreeIndex.IsPathToRoot` the proofs
assume.  {lit}`block_ctr` is a {lean}`UInt64`: the enclave is built without
overflow checks, so its increment wraps.  Indices are {lean}`Nat`.  The
re-entrancy mutex, the allocation id and the byte sizes of the buffers are left
out.
-/

namespace Fog
namespace Oram

open Store

/-- {lit}`ExtraMeta`: the counter and the two child hashes stored with every
node the host keeps. -/
structure ExtraMeta (Hash : Type) where
  blockCtr : UInt64
  leftChildHash : Hash
  rightChildHash : Hash
deriving DecidableEq, Repr

/-- The all-zero extended metadata. -/
instance {Hash : Type} [Inhabited Hash] : Inhabited (ExtraMeta Hash) :=
  ⟨⟨0, default, default⟩⟩

/-- The default extended metadata is all zero. -/
@[simp]
theorem ExtraMeta.default_eq {Hash : Type} [Inhabited Hash] :
    (default : ExtraMeta Hash) = ⟨0, default, default⟩ :=
  rfl

variable {Data Meta Hash : Type}

namespace ExtraMeta

/-- The stored hash of the child {lit}`lastIdx`: the left one for an even index
({lit}`last_idx & 1 == 0`), the right one otherwise. -/
def childHash (e : ExtraMeta Hash) (lastIdx : Nat) : Hash :=
  if lastIdx &&& 1 = 0 then e.leftChildHash else e.rightChildHash

/-- Replace the stored hash of the child {lit}`lastIdx`. -/
def setChildHash (e : ExtraMeta Hash) (lastIdx : Nat) (h : Hash) : ExtraMeta Hash :=
  if lastIdx &&& 1 = 0 then { e with leftChildHash := h } else { e with rightChildHash := h }

/-- A child's hash reads back as set. -/
@[simp]
theorem childHash_setChildHash_self (e : ExtraMeta Hash) (c : Nat) (h : Hash) :
    (e.setChildHash c h).childHash c = h := by
  unfold childHash setChildHash
  split <;> simp_all

/-- Setting the hash of one child leaves that of a child of the other parity. -/
theorem childHash_setChildHash_of_mod_ne (e : ExtraMeta Hash) {c c' : Nat} (h : Hash)
    (hne : c' % 2 ≠ c % 2) : (e.setChildHash c h).childHash c' = e.childHash c' := by
  unfold childHash setChildHash
  simp only [Nat.and_one_is_mod] at *
  by_cases hc : c % 2 = 0 <;> by_cases hc' : c' % 2 = 0 <;> simp_all

/-- The zero metadata stores zero hashes. -/
@[simp]
theorem childHash_default [Inhabited Hash] (c : Nat) : (default : ExtraMeta Hash).childHash c = default := by
  unfold childHash
  split <;> rfl

/-- Setting a child's hash leaves the counter. -/
@[simp]
theorem blockCtr_setChildHash (e : ExtraMeta Hash) (c : Nat) (h : Hash) :
    (e.setChildHash c h).blockCtr = e.blockCtr := by
  unfold setChildHash
  split <;> rfl

end ExtraMeta

/-- A metadata block followed by its extended metadata, as the enclave's
{lit}`meta_scratch_buffer` and the host's metadata array hold it. -/
abbrev Scratch (Meta Hash : Type) := Meta × ExtraMeta Hash

/-- AES-CTR under the storage's AES key, and {lit}`compute_block_hash` under
its hash key. -/
structure OramCrypto (Data Meta Hash : Type) where
  /-- The keystream for the nonce {lit}`(block_idx, block_ctr)`, applied to a
  data block and then to a metadata block; encryption and decryption are both
  this operation. -/
  cipher : Nat × UInt64 → Data × Meta → Data × Meta
  /-- The hash of a node from its encrypted data, its index and its encrypted
  metadata with the extended metadata. -/
  computeBlockHash : Data → Nat → Scratch Meta Hash → Hash

/-! ## The host side -/

/-- The host's allocation: the data and the metadata bytes at every shifted
index. -/
abbrev UntrustedAllocation (Data Meta Hash : Type) := Nat → Data × Scratch Meta Hash

/-- {lit}`UntrustedAllocation::new`: the data array is allocated without being
initialised, the metadata array is zeroed. -/
def UntrustedAllocation.new [Inhabited Meta] [Inhabited Hash] (data : Nat → Data) :
    UntrustedAllocation Data Meta Hash :=
  fun i => (data i, default)

/-- {lit}`checkout_oram_storage`: copy out the stored blocks at the indices. -/
def checkoutOramStorage (store : UntrustedAllocation Data Meta Hash) (idx : List Nat) :
    List (Data × Scratch Meta Hash) :=
  idx.map store

/-- {lit}`checkin_oram_storage`: copy the blocks back in, index by index. -/
def checkinOramStorage (store : UntrustedAllocation Data Meta Hash)
    (writes : List (Nat × (Data × Scratch Meta Hash))) : UntrustedAllocation Data Meta Hash :=
  writeAll store writes

/-! ## The enclave side -/

/-- The enclave's state of one {lit}`OcallORAMStorage`. -/
structure OcallORAMStorage (Data Meta Hash : Type) where
  count : Nat
  treetopMaxCount : Nat
  /-- The {lit}`HeapORAMStorage` of the nodes below {lit}`treetop_max_count`. -/
  treetop : Nat → Data × Meta
  trustedMerkleRoots : Nat → Hash
  metaScratchBuffer : List (Scratch Meta Hash)

/-- {lit}`treetop_max_count` for a caching threshold of {lit}`2^thresholdLog2`
bytes and blocks of {lit}`dataSize` bytes. -/
def treetopMaxCountOf (thresholdLog2 dataSize : Nat) : Nat :=
  max 2 ((1 <<< thresholdLog2) / dataSize)

namespace OcallORAMStorage

variable [Inhabited Data] [Inhabited Meta] [Inhabited Hash]

/-- {lit}`OcallORAMStorage::new`: the count must be a nonzero power of two; the
tree top and the trusted roots start zeroed. -/
def new (count treetopMaxCount : Nat) : Option (OcallORAMStorage Data Meta Hash) :=
  if count = 0 then none
  else if count &&& (count - 1) ≠ 0 then none
  else some ⟨count, treetopMaxCount, fun _ => default, fun _ => default, []⟩

/-- Whether a node's extended metadata holds the hash computed for the child
visited before it ({lit}`last_hash`), when there was one. -/
def childHashMatches [DecidableEq Hash] (lastHash : Option (Nat × Hash))
    (extraMeta : ExtraMeta Hash) : Bool :=
  match lastHash with
  | none => true
  | some (lastIdx, h) => h = extraMeta.childHash lastIdx

variable [DecidableEq Meta] [DecidableEq Hash]

/-- The loop of {lit}`checkout` over the host's part of the path: the position
in the path, the hash of the node visited before, and for each node its index,
the data and the metadata bytes the host returned.  It produces the decrypted
data and metadata and the scratch entry kept for the check-in.  An all-zero
metadata entry is taken as a node never written; otherwise the stored child
hash is compared with the hash of the child, and the node at position
{lit}`first_treetop_index` would be compared with its trusted root. -/
def checkoutLoop (crypto : OramCrypto Data Meta Hash) (roots : Nat → Hash)
    (firstTreetopIndex : Nat) :
    Nat → Option (Nat × Hash) → List (Nat × (Data × Scratch Meta Hash)) →
      Option (List ((Data × Meta) × Scratch Meta Hash))
  | _, _, [] => some []
  | pos, lastHash, (idx, data, scratch) :: rest =>
      if scratch = default then
        (checkoutLoop crypto roots firstTreetopIndex (pos + 1) (some (idx, default)) rest).map
          fun out => ((default, default), scratch) :: out
      else
        let thisBlockHash := crypto.computeBlockHash data idx scratch
        let extraMeta := scratch.2
        if !childHashMatches lastHash extraMeta then none
        else if pos = firstTreetopIndex ∧ roots idx ≠ thisBlockHash then none
        else
          let plain := crypto.cipher (idx, extraMeta.blockCtr) (data, scratch.1)
          (checkoutLoop crypto roots firstTreetopIndex (pos + 1) (some (idx, thisBlockHash)) rest).map
            fun out => (plain, (plain.2, extraMeta)) :: out

/-- A node whose metadata the host returned all zero is read as zero, with no
check. -/
theorem checkoutLoop_cons_of_eq_default (crypto : OramCrypto Data Meta Hash) (roots : Nat → Hash)
    {firstTreetopIndex pos idx : Nat} {lastHash : Option (Nat × Hash)}
    {entry : Data × Scratch Meta Hash} {rest : List (Nat × (Data × Scratch Meta Hash))}
    (h : entry.2 = default) :
    checkoutLoop crypto roots firstTreetopIndex pos lastHash ((idx, entry) :: rest) =
      (checkoutLoop crypto roots firstTreetopIndex (pos + 1) (some (idx, default)) rest).map
        fun out => ((default, default), entry.2) :: out := by
  obtain ⟨data, scratch⟩ := entry
  rw [checkoutLoop, if_pos h]

/-- A node that passes both checks is decrypted under its own nonce, and its
hash is handed to its parent. -/
theorem checkoutLoop_cons_of_checked (crypto : OramCrypto Data Meta Hash) (roots : Nat → Hash)
    {firstTreetopIndex pos idx : Nat} {lastHash : Option (Nat × Hash)}
    {entry : Data × Scratch Meta Hash} {rest : List (Nat × (Data × Scratch Meta Hash))}
    (h : entry.2 ≠ default) (hchild : childHashMatches lastHash entry.2.2 = true)
    (hroot : ¬(pos = firstTreetopIndex ∧
      roots idx ≠ crypto.computeBlockHash entry.1 idx entry.2)) :
    checkoutLoop crypto roots firstTreetopIndex pos lastHash ((idx, entry) :: rest) =
      (checkoutLoop crypto roots firstTreetopIndex (pos + 1)
          (some (idx, crypto.computeBlockHash entry.1 idx entry.2)) rest).map
        fun out => (crypto.cipher (idx, entry.2.2.blockCtr) (entry.1, entry.2.1),
          ((crypto.cipher (idx, entry.2.2.blockCtr) (entry.1, entry.2.1)).2, entry.2.2)) :: out := by
  obtain ⟨data, scratch⟩ := entry
  rw [checkoutLoop, if_neg h]
  simp only [hchild, Bool.not_true, Bool.false_eq_true, if_false, if_neg hroot]

/-- {lit}`checkout(index, dest, dest_meta)` for buffers of length {lit}`len`,
when the host answers the request for the shifted indices with {lit}`reply`:
the data and metadata along the path from {lit}`index` to the root, and the
new state. -/
def checkout (crypto : OramCrypto Data Meta Hash) (parents : Nat → List Nat)
    (s : OcallORAMStorage Data Meta Hash) (index len : Nat)
    (reply : UntrustedAllocation Data Meta Hash) :
    Option (List (Data × Meta) × OcallORAMStorage Data Meta Hash) :=
  if index = 0 then none
  else if s.count ≤ index then none
  else
    let indices := parents index
    if indices.length ≠ len then none
    else
      match indices.findIdx? (· < s.treetopMaxCount) with
      | none => none
      | some firstTreetopIndex =>
          let top := (indices.drop firstTreetopIndex).map s.treetop
          if firstTreetopIndex = 0 then some (top, s)
          else
            -- the host fills the buffers for the shifted indices
            let buffers := checkoutOramStorage reply
              ((indices.take firstTreetopIndex).map (· - s.treetopMaxCount))
            match checkoutLoop crypto s.trustedMerkleRoots firstTreetopIndex 0 none
                ((indices.take firstTreetopIndex).zip buffers) with
            | none => none
            | some out => some (out.map Prod.fst ++ top, { s with metaScratchBuffer := out.map Prod.snd })

/-- The checkout of a valid index, with the path cut at {lit}`k`: the tree top
alone, or the loop over the host's part followed by the tree top. -/
theorem checkout_of_findIdx? (crypto : OramCrypto Data Meta Hash) (parents : Nat → List Nat)
    (s : OcallORAMStorage Data Meta Hash) {index len k : Nat}
    (reply : UntrustedAllocation Data Meta Hash) (h0 : 0 < index) (hc : index < s.count)
    (hlen : (parents index).length = len)
    (hk : (parents index).findIdx? (· < s.treetopMaxCount) = some k) :
    checkout crypto parents s index len reply =
      if k = 0 then some (((parents index).drop k).map s.treetop, s)
      else
        (checkoutLoop crypto s.trustedMerkleRoots k 0 none
            (((parents index).take k).zip
              (checkoutOramStorage reply (((parents index).take k).map (· - s.treetopMaxCount))))).map
          fun out => (out.map Prod.fst ++ ((parents index).drop k).map s.treetop,
            { s with metaScratchBuffer := out.map Prod.snd }) := by
  unfold checkout
  rw [if_neg (Nat.pos_iff_ne_zero.1 h0), if_neg (Nat.not_le.2 hc)]
  simp only [hlen, ne_eq, not_true_eq_false, if_false, hk]
  split
  · rfl
  · split <;> simp_all

/-- Frame: a checkout changes nothing but the scratch buffer. -/
theorem checkout_frame {crypto : OramCrypto Data Meta Hash} {parents : Nat → List Nat}
    {s s' : OcallORAMStorage Data Meta Hash} {index len : Nat}
    {reply : UntrustedAllocation Data Meta Hash} {out : List (Data × Meta)}
    (h : checkout crypto parents s index len reply = some (out, s')) :
    s' = { s with metaScratchBuffer := s'.metaScratchBuffer } := by
  unfold checkout at h
  dsimp only at h
  repeat' split at h
  all_goals cases h
  all_goals rfl

/-- The block of {lit}`checkin` that updates a node's extended metadata: the
hash of the child visited before, if any, replaces the stored one, and the
counter is bumped. -/
def updateExtraMeta (lastHash : Option (Nat × Hash)) (extraMeta : ExtraMeta Hash) :
    ExtraMeta Hash :=
  let extraMeta := match lastHash with
    | some (lastIdx, h) => extraMeta.setChildHash lastIdx h
    | none => extraMeta
  { extraMeta with blockCtr := extraMeta.blockCtr + 1 }

omit [Inhabited Data] [Inhabited Meta] [Inhabited Hash] [DecidableEq Meta] [DecidableEq Hash] in
/-- An update increments the counter. -/
@[simp]
theorem blockCtr_updateExtraMeta (lastHash : Option (Nat × Hash)) (e : ExtraMeta Hash) :
    (updateExtraMeta lastHash e).blockCtr = e.blockCtr + 1 := by
  cases lastHash with
  | none => rfl
  | some p => simp [updateExtraMeta]

omit [Inhabited Data] [Inhabited Meta] [Inhabited Hash] [DecidableEq Meta] [DecidableEq Hash] in
/-- An update with no hash handed on keeps the children's hashes. -/
@[simp]
theorem childHash_updateExtraMeta_none (e : ExtraMeta Hash) (c : Nat) :
    (updateExtraMeta none e).childHash c = e.childHash c :=
  rfl

omit [Inhabited Data] [Inhabited Meta] [Inhabited Hash] [DecidableEq Meta] [DecidableEq Hash] in
/-- An update stores the hash handed on under its child. -/
@[simp]
theorem childHash_updateExtraMeta_self (e : ExtraMeta Hash) (c : Nat) (h : Hash) :
    (updateExtraMeta (some (c, h)) e).childHash c = h :=
  e.childHash_setChildHash_self c h

omit [Inhabited Data] [Inhabited Meta] [Inhabited Hash] [DecidableEq Meta] [DecidableEq Hash] in
/-- The stored hash of the other child is kept. -/
theorem childHash_updateExtraMeta_of_mod_ne (e : ExtraMeta Hash) {c c' : Nat} (h : Hash)
    (hne : c' % 2 ≠ c % 2) :
    (updateExtraMeta (some (c, h)) e).childHash c' = e.childHash c' :=
  e.childHash_setChildHash_of_mod_ne h hne

/-- The loop of {lit}`checkin` over the host's part of the path, bottom up: for
each node its index, the new data and metadata, and the scratch entry left by
the checkout.  The extended metadata is updated, the block encrypted under the
new nonce and hashed for the next node.  It produces the encrypted data and
scratch entry of every node, and the hash of the last one. -/
def checkinLoop (crypto : OramCrypto Data Meta Hash) :
    Option (Nat × Hash) → List (Nat × (Data × Meta) × Scratch Meta Hash) →
      List (Data × Scratch Meta Hash) × Option (Nat × Hash)
  | lastHash, [] => ([], lastHash)
  | lastHash, (idx, (data, metaBlock), scratch) :: rest =>
      let extraMeta := updateExtraMeta lastHash scratch.2
      let enc := crypto.cipher (idx, extraMeta.blockCtr) (data, metaBlock)
      let scratch' : Scratch Meta Hash := (enc.2, extraMeta)
      let thisBlockHash := crypto.computeBlockHash enc.1 idx scratch'
      let rest' := checkinLoop crypto (some (idx, thisBlockHash)) rest
      ((enc.1, scratch') :: rest'.1, rest'.2)

omit [Inhabited Data] [Inhabited Meta] [Inhabited Hash] [DecidableEq Meta] [DecidableEq Hash] in
/-- The step of the check-in loop at one node. -/
theorem checkinLoop_cons (crypto : OramCrypto Data Meta Hash) (lastHash : Option (Nat × Hash))
    (idx : Nat) (src : Data × Meta) (scratch : Scratch Meta Hash)
    (rest : List (Nat × (Data × Meta) × Scratch Meta Hash)) :
    checkinLoop crypto lastHash ((idx, src, scratch) :: rest) =
      let enc := crypto.cipher (idx, (updateExtraMeta lastHash scratch.2).blockCtr) src
      let scratch' : Scratch Meta Hash := (enc.2, updateExtraMeta lastHash scratch.2)
      let rest' := checkinLoop crypto (some (idx, crypto.computeBlockHash enc.1 idx scratch')) rest
      ((enc.1, scratch') :: rest'.1, rest'.2) :=
  rfl

omit [Inhabited Data] [Inhabited Meta] [Inhabited Hash] [DecidableEq Meta] [DecidableEq Hash] in
/-- The last hash the check-in loop hands on is that of its last node. -/
theorem checkinLoop_snd_map_fst (crypto : OramCrypto Data Meta Hash) :
    ∀ (lastHash : Option (Nat × Hash)) (entries : List (Nat × (Data × Meta) × Scratch Meta Hash)),
      entries ≠ [] →
        (checkinLoop crypto lastHash entries).2.map Prod.fst = (entries.map Prod.fst).getLast?
  | _, [], h => absurd rfl h
  | lastHash, [(idx, src, scratch)], _ => rfl
  | lastHash, (idx, src, scratch) :: e :: rest, _ => by
      simp only [checkinLoop_cons, List.map_cons, List.getLast?_cons_cons]
      exact checkinLoop_snd_map_fst crypto _ (e :: rest) (List.cons_ne_nil e rest)

omit [Inhabited Data] [Inhabited Meta] [Inhabited Hash] [DecidableEq Meta] [DecidableEq Hash] in
/-- The check-in loop over a path that is not empty, started with no hash,
ends holding the hash of the path's last node. -/
theorem checkinLoop_snd_eq_some (crypto : OramCrypto Data Meta Hash) (js : List Nat)
    (rest : List ((Data × Meta) × Scratch Meta Hash)) (hne : js ≠ [])
    (hlen : rest.length = js.length) :
    ∃ jl h, js.getLast? = some jl ∧ (checkinLoop crypto none (js.zip rest)).2 = some (jl, h) := by
  have hrest : rest ≠ [] := by
    rw [← List.length_pos_iff, hlen]
    exact List.length_pos_iff.2 hne
  have hzip : js.zip rest ≠ [] := by
    rw [Ne, List.zip_eq_nil_iff, not_or]
    exact ⟨hne, hrest⟩
  have hfst := checkinLoop_snd_map_fst crypto none _ hzip
  rw [List.map_fst_zip (by omega)] at hfst
  obtain ⟨jl, hjl⟩ := Option.ne_none_iff_exists'.1 (mt List.getLast?_eq_none_iff.1 hne)
  rw [hjl] at hfst
  obtain ⟨⟨jl', h⟩, hres, rfl⟩ := Option.map_eq_some_iff.1 hfst
  exact ⟨jl', h, hjl, hres⟩

/-- {lit}`Vec::resize_with(n, Default::default)`. -/
def resizeWithDefault (buffer : List (Scratch Meta Hash)) (n : Nat) : List (Scratch Meta Hash) :=
  buffer.take n ++ List.replicate (n - buffer.length) default

omit [DecidableEq Meta] [DecidableEq Hash] in
/-- Resizing a buffer to its own length leaves it as it is. -/
theorem resizeWithDefault_of_length_eq {buffer : List (Scratch Meta Hash)} {n : Nat}
    (h : buffer.length = n) : resizeWithDefault buffer n = buffer := by
  subst h
  simp [resizeWithDefault]

/-- {lit}`checkin(index, src, src_meta)`: the new state, and the blocks sent to
the host for its shifted indices. -/
def checkin (crypto : OramCrypto Data Meta Hash) (parents : Nat → List Nat)
    (s : OcallORAMStorage Data Meta Hash) (index : Nat) (src : List (Data × Meta)) :
    Option (OcallORAMStorage Data Meta Hash × List (Nat × (Data × Scratch Meta Hash))) :=
  if index = 0 then none
  else if s.count ≤ index then none
  else
    let indices := parents index
    if indices.length ≠ src.length then none
    else
      match indices.findIdx? (· < s.treetopMaxCount) with
      | none => none
      | some firstTreetopIndex =>
          let treetop := writeAll s.treetop
            ((indices.drop firstTreetopIndex).zip (src.drop firstTreetopIndex))
          if firstTreetopIndex = 0 then some ({ s with treetop := treetop }, [])
          else
            let scratch := resizeWithDefault s.metaScratchBuffer firstTreetopIndex
            let result := checkinLoop crypto none
              ((indices.take firstTreetopIndex).zip ((src.take firstTreetopIndex).zip scratch))
            match result.2 with
            | none => none
            | some (lastIdx, lastHash) =>
                some ({ s with
                        treetop := treetop
                        trustedMerkleRoots := Function.update s.trustedMerkleRoots lastIdx lastHash
                        metaScratchBuffer := result.1.map Prod.snd },
                      ((indices.take firstTreetopIndex).map (· - s.treetopMaxCount)).zip result.1)

omit [Inhabited Data] [DecidableEq Meta] [DecidableEq Hash] in
/-- The checkin of a valid index, with the path cut at {lit}`k`: the tree top
alone, or the loop over the host's part, whose last hash becomes a trusted root. -/
theorem checkin_of_findIdx? (crypto : OramCrypto Data Meta Hash) (parents : Nat → List Nat)
    (s : OcallORAMStorage Data Meta Hash) {index k : Nat} (src : List (Data × Meta))
    (h0 : 0 < index) (hc : index < s.count) (hlen : (parents index).length = src.length)
    (hk : (parents index).findIdx? (· < s.treetopMaxCount) = some k) :
    checkin crypto parents s index src =
      if k = 0 then
        some ({ s with treetop := writeAll s.treetop (((parents index).drop k).zip (src.drop k)) }, [])
      else
        let result := checkinLoop crypto none
          (((parents index).take k).zip ((src.take k).zip (resizeWithDefault s.metaScratchBuffer k)))
        result.2.map fun last =>
          ({ s with
              treetop := writeAll s.treetop (((parents index).drop k).zip (src.drop k))
              trustedMerkleRoots := Function.update s.trustedMerkleRoots last.1 last.2
              metaScratchBuffer := result.1.map Prod.snd },
            (((parents index).take k).map (· - s.treetopMaxCount)).zip result.1) := by
  unfold checkin
  rw [if_neg (Nat.pos_iff_ne_zero.1 h0), if_neg (Nat.not_le.2 hc)]
  simp only [hlen, ne_eq, not_true_eq_false, if_false, hk]
  split
  · rfl
  · split <;> simp_all

omit [Inhabited Data] [DecidableEq Meta] [DecidableEq Hash] in
/-- Frame: a checkin keeps the count and the size of the tree top. -/
theorem checkin_frame {crypto : OramCrypto Data Meta Hash} {parents : Nat → List Nat}
    {s s' : OcallORAMStorage Data Meta Hash} {index : Nat} {src : List (Data × Meta)}
    {writes : List (Nat × (Data × Scratch Meta Hash))}
    (h : checkin crypto parents s index src = some (s', writes)) :
    s'.count = s.count ∧ s'.treetopMaxCount = s.treetopMaxCount := by
  unfold checkin at h
  dsimp only at h
  repeat' split at h
  all_goals cases h
  all_goals exact ⟨rfl, rfl⟩

end OcallORAMStorage

/-! ## The storage with an honest host -/

/-- The enclave's storage and the host allocation behind it. -/
structure OramSystem (Data Meta Hash : Type) where
  storage : OcallORAMStorage Data Meta Hash
  untrusted : UntrustedAllocation Data Meta Hash

namespace OramSystem

variable [Inhabited Data] [Inhabited Meta] [Inhabited Hash] [DecidableEq Meta] [DecidableEq Hash]

/-- One access of the ORAM to the storage: {lit}`checkout(index)` answered by
the host from its allocation, then {lit}`checkin(index, src)` of the new
blocks, which the host stores.  The output is what the checkout returned. -/
def access (crypto : OramCrypto Data Meta Hash) (parents : Nat → List Nat)
    (sys : OramSystem Data Meta Hash) (op : Nat × List (Data × Meta)) :
    Option (OramSystem Data Meta Hash × List (Data × Meta)) :=
  match sys.storage.checkout crypto parents op.1 op.2.length sys.untrusted with
  | none => none
  | some (out, s₁) =>
      match s₁.checkin crypto parents op.1 op.2 with
      | none => none
      | some (s₂, writes) => some (⟨s₂, checkinOramStorage sys.untrusted writes⟩, out)

/-- Frame: an access keeps the storage's count and the size of its tree top. -/
theorem access_frame {crypto : OramCrypto Data Meta Hash} {parents : Nat → List Nat}
    {sys sys' : OramSystem Data Meta Hash} {op : Nat × List (Data × Meta)}
    {out : List (Data × Meta)} (h : access crypto parents sys op = some (sys', out)) :
    sys'.storage.count = sys.storage.count ∧
      sys'.storage.treetopMaxCount = sys.storage.treetopMaxCount := by
  unfold access at h
  split at h
  · cases h
  · rename_i out₁ s₁ hco
    split at h
    · cases h
    · rename_i s₂ writes hci
      obtain ⟨rfl, -⟩ := Prod.mk.inj (Option.some.inj h)
      have h₁ := OcallORAMStorage.checkout_frame hco
      have h₂ := OcallORAMStorage.checkin_frame hci
      rw [h₁] at h₂
      exact h₂

end OramSystem

end Oram
end Fog
