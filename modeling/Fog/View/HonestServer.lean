import Fog.View.Polling

/-!
# Polling an honest server

An honest view server, for the time of one poll, is a fixed map from search
keys to payloads and a block count: it answers every search key with the
payload stored under it, or a miss.  Against such a server,
{lit}`FogViewConnection::poll` should recover exactly the continuation of every
RNG: each RNG ends at its first output that is not a key of the map, and every
output it passes over is decrypted once.

The argument is a loop invariant over the rounds.  Between rounds every RNG
stands at some offset {lit}`j` from where the loop started, at most the end
{lit}`n` of its run in the map; a dead RNG is at the end of its run; and the
records and decryption errors so far are those of the outputs passed over.  In
a round, a live RNG advances over {lit}`min m (n - j)` outputs, where
{lit}`m` is the multiplier, because the answers hold its own window and no
other RNG's output can match it; it is declared dead exactly when it advanced
less than {lit}`m`, that is when it reached the end of its run.  The potential,
what is left of the runs plus the number of live RNGs, falls in every round, so
enough fuel ends the loop.

The dead test compares indices by wrapping {lit}`u64` arithmetic, so the
argument needs every index to stay below {lit}`2^64` by the map's size and the
largest multiplier; without that bound the test can fail forever, and
{lean}`poll_never_returns_at_last_index` shows a poll that never returns.

Main results:

- Theorem {lean}`poll_recovers_gap_free_continuation`.
- Theorem {lean}`poll_never_returns_at_last_index`.
-/

namespace Fog
namespace View

open KexRng UserRngSet

/-- An honest view server, fixed for the time of a poll: the payloads by search
key, its block count, and the user events announcing RNG records, with their
ids. -/
structure HonestViewServer where
  txos : AList fun _ : List UInt8 => List UInt8
  highestProcessedBlockCount : Nat
  rngEvents : List (Int × RngRecord)
  nextStartFromUserEventId : Int

namespace HonestViewServer

/-- The answer for one search key: its payload, or a miss. -/
def searchResult (srv : HonestViewServer) (searchKey : List UInt8) : TxOutSearchResult :=
  match srv.txos.lookup searchKey with
  | some ciphertext => ⟨searchKey, .found, ciphertext⟩
  | none => ⟨searchKey, .notFound, []⟩

/-- The records of the events after an event id. -/
def rngRecordsAfter (srv : HonestViewServer) (startFromUserEventId : Int) : List RngRecord :=
  (srv.rngEvents.filter fun ev => startFromUserEventId < ev.1).map Prod.snd

/-- The server's answer to a request, which never fails. -/
def request (ConnError : Type) (srv : HonestViewServer) (startFromUserEventId : Int)
    (_startFromBlockIndex : Nat) (searchKeys : List (List UInt8)) :
    Except ConnError QueryResponse :=
  .ok ⟨srv.highestProcessedBlockCount, srv.nextStartFromUserEventId,
    srv.rngRecordsAfter startFromUserEventId, searchKeys.map srv.searchResult⟩

variable {Rec : Type}

/-- Collecting one answer: the key's payload goes into the map when the server
has one. -/
theorem lookup_collectResult_searchResult (srv : HonestViewServer) (b : SearchBuffers Rec)
    (key k : List UInt8) :
    (collectResult b (srv.searchResult key)).txResultMap.lookup k =
      if k = key then (srv.txos.lookup k).or (b.txResultMap.lookup k)
      else b.txResultMap.lookup k := by
  unfold searchResult
  cases hkey : srv.txos.lookup key with
  | none =>
      simp only [collectResult, reduceCtorEq, if_false, ne_eq, not_true_eq_false]
      split_ifs with hk
      · rw [hk, hkey, Option.none_or]
      · rfl
  | some ciphertext =>
      simp only [collectResult, if_pos]
      by_cases hk : k = key
      · rw [if_pos hk, hk, AList.lookup_insert, hkey, Option.some_or]
      · rw [if_neg hk, AList.lookup_insert_ne hk]

/-- The map a round collects from the server's answers holds the server's
payload for every requested key and nothing else. -/
theorem lookup_foldl_collectResult (srv : HonestViewServer) (k : List UInt8) :
    ∀ (keys : List (List UInt8)) (b : SearchBuffers Rec),
      ((keys.map srv.searchResult).foldl collectResult b).txResultMap.lookup k =
        if k ∈ keys then (srv.txos.lookup k).or (b.txResultMap.lookup k)
        else b.txResultMap.lookup k
  | [], b => by simp
  | key :: keys, b => by
      rw [List.map_cons, List.foldl_cons, lookup_foldl_collectResult srv k keys,
        lookup_collectResult_searchResult]
      by_cases hks : k ∈ keys
      · rw [if_pos hks, if_pos (List.mem_cons_of_mem _ hks)]
        split_ifs <;> cases srv.txos.lookup k <;> rfl
      · by_cases hk : k = key
        · rw [if_neg hks, if_pos hk, if_pos (hk ▸ List.mem_cons_self)]
        · rw [if_neg hks, if_neg hk, if_neg (by simp [hk, hks])]

/-- A server without payloads answers every key with a miss, which the first
loop drops. -/
theorem foldl_collectResult_of_txos_eq_empty {srv : HonestViewServer} (hempty : srv.txos = ∅) :
    ∀ (keys : List (List UInt8)) (b : SearchBuffers Rec),
      (keys.map srv.searchResult).foldl collectResult b = b
  | [], _ => rfl
  | key :: keys, b => by
      have hmiss : collectResult b (srv.searchResult key) = b := by
        simp [searchResult, hempty, collectResult]
      rw [List.map_cons, List.foldl_cons, hmiss, foldl_collectResult_of_txos_eq_empty hempty keys b]

end HonestViewServer

/-! ## Runs of outputs in the map -/

variable {prf : List UInt8 → UInt64 → List UInt8}

/-- {lean}`n` is where an RNG's run of outputs in a map ends: its next
{lean}`n` outputs are keys of the map and the one after them is not. -/
def FirstMiss (M : AList fun _ : List UInt8 => List UInt8) (r : BufferedKexRng prf) (n : Nat) :
    Prop :=
  (∀ i < n, r.outputAt i ∈ M) ∧ r.outputAt n ∉ M

/-- No two (RNG, index) pairs share an output. -/
def DistinctOutputs (rngs : List (List UInt8 × BufferedKexRng prf)) : Prop :=
  ∀ e₁ ∈ rngs, ∀ e₂ ∈ rngs, ∀ a b : UInt64,
    prf e₁.2.secret a = prf e₂.2.secret b → e₁.1 = e₂.1 ∧ a = b

/-- Every RNG advanced by the count of its key. -/
def advanceEach (rngs : List (List UInt8 × BufferedKexRng prf)) (j : List UInt8 → Nat) :
    List (List UInt8 × BufferedKexRng prf) :=
  rngs.map fun e => (e.1, BufferedKexRng.advance^[j e.1] e.2)

/-- Advancing every RNG by zero leaves them alone. -/
@[simp]
theorem advanceEach_zero (rngs : List (List UInt8 × BufferedKexRng prf)) :
    advanceEach rngs (fun _ => 0) = rngs := by
  simp [advanceEach]

/-- Two advances of every RNG are one by the sum of the counts. -/
theorem advanceEach_advanceEach (rngs : List (List UInt8 × BufferedKexRng prf))
    (j a : List UInt8 → Nat) :
    advanceEach (advanceEach rngs j) a = advanceEach rngs fun k => j k + a k := by
  simp only [advanceEach, List.map_map]
  refine List.map_congr_left fun e _ => ?_
  simp only [Function.comp_apply, Nat.add_comm (j e.1), Function.iterate_add_apply]

/-- Advancing the RNGs keeps their keys. -/
@[simp]
theorem map_fst_advanceEach (rngs : List (List UInt8 × BufferedKexRng prf))
    (j : List UInt8 → Nat) : (advanceEach rngs j).map Prod.fst = rngs.map Prod.fst := by
  simp [advanceEach]

/-- The number of consecutive outputs from an RNG's index that are keys of the
map, counting at most {lean}`bound`. -/
def foundRun (M : AList fun _ : List UInt8 => List UInt8) (r : BufferedKexRng prf) : Nat → Nat
  | 0 => 0
  | bound + 1 => if r.outputAt 0 ∈ M then foundRun M r.advance bound + 1 else 0

section FoundRun

variable {M : AList fun _ : List UInt8 => List UInt8}

/-- A run counts at most its bound. -/
theorem foundRun_le (r : BufferedKexRng prf) (bound : Nat) : foundRun M r bound ≤ bound := by
  induction bound generalizing r with
  | zero => exact Nat.le_refl 0
  | succ bound ih =>
      unfold foundRun
      split
      · exact Nat.succ_le_succ (ih r.advance)
      · exact Nat.zero_le _

/-- Every output before the end of the run is a key of the map. -/
theorem mem_of_lt_foundRun {r : BufferedKexRng prf} {bound i : Nat} (h : i < foundRun M r bound) :
    r.outputAt i ∈ M := by
  induction bound generalizing r i with
  | zero => exact absurd h (Nat.not_lt_zero i)
  | succ bound ih =>
      unfold foundRun at h
      split at h
      · rename_i h0
        cases i with
        | zero => exact h0
        | succ i =>
            rw [← BufferedKexRng.outputAt_advance]
            exact ih (Nat.lt_of_succ_lt_succ h)
      · exact absurd h (Nat.not_lt_zero i)

/-- A run that stops before its bound stops at an output the map lacks. -/
theorem not_mem_foundRun {r : BufferedKexRng prf} {bound : Nat} (h : foundRun M r bound < bound) :
    r.outputAt (foundRun M r bound) ∉ M := by
  induction bound generalizing r with
  | zero => exact absurd h (Nat.not_lt_zero _)
  | succ bound ih =>
      unfold foundRun at h ⊢
      split
      · rw [← BufferedKexRng.outputAt_advance]
        rw [if_pos ‹_›] at h
        exact ih (Nat.lt_of_succ_lt_succ h)
      · assumption

end FoundRun

/-- A sum that stays below {lit}`2^64` does not wrap. -/
theorem toNat_add_ofNat {c : UInt64} {x : Nat} (h : c.toNat + x < 2 ^ 64) :
    (c + UInt64.ofNat x).toNat = c.toNat + x := by
  rw [UInt64.toNat_add, UInt64.toNat_ofNat', Nat.mod_eq_of_lt (show x < 2 ^ 64 by omega),
    Nat.mod_eq_of_lt h]

/-- Below {lit}`2^64` an output names its RNG and its offset. -/
theorem eq_of_outputAt_eq {rngs : List (List UInt8 × BufferedKexRng prf)}
    (hd : DistinctOutputs rngs) (hnodup : (rngs.map Prod.fst).Nodup)
    {e₁ e₂ : List UInt8 × BufferedKexRng prf} (he₁ : e₁ ∈ rngs) (he₂ : e₂ ∈ rngs) {x y : Nat}
    (hx : e₁.2.counter.toNat + x < 2 ^ 64) (hy : e₂.2.counter.toNat + y < 2 ^ 64)
    (h : e₁.2.outputAt x = e₂.2.outputAt y) : e₁ = e₂ ∧ x = y := by
  obtain ⟨hkey, hindex⟩ := hd e₁ he₁ e₂ he₂ _ _ h
  have he : e₁ = e₂ := List.inj_on_of_nodup_map hnodup he₁ he₂ hkey
  subst he
  have := congrArg UInt64.toNat hindex
  rw [toNat_add_ofNat hx, toNat_add_ofNat hy] at this
  exact ⟨rfl, by omega⟩

/-! ## One round against the honest server -/

/-- What the argument assumes of the RNGs when the loop starts and of the
server's map: {lean}`n` ends every RNG's run in the map and is at most the
map's size, no two outputs coincide, the keys are distinct, and every index
stays below {lit}`2^64` by the map's size and the largest multiplier. -/
structure Setting (M : AList fun _ : List UInt8 => List UInt8)
    (rngs₀ : List (List UInt8 × BufferedKexRng prf)) (n : List UInt8 → Nat) : Prop where
  firstMiss : ∀ e ∈ rngs₀, FirstMiss M e.2 (n e.1)
  le_size : ∀ e ∈ rngs₀, n e.1 ≤ M.keys.length
  distinct : DistinctOutputs rngs₀
  nodup : (rngs₀.map Prod.fst).Nodup
  bound : ∀ e ∈ rngs₀, e.2.counter.toNat + M.keys.length + 1000 < 2 ^ 64

/-- How far an RNG advances in a round: a dead one not at all, a live one over
its window or to the end of its run, whichever comes first. -/
def roundAdvance (n j : List UInt8 → Nat) (deadRngSet : List (List UInt8))
    (requestMultiplier : Nat) (k : List UInt8) : Nat :=
  if deadRngSet.contains k then 0 else min requestMultiplier (n k - j k)

/-- No RNG advances past the request multiplier in a round. -/
theorem roundAdvance_le (n j : List UInt8 → Nat) (deadRngSet : List (List UInt8))
    (requestMultiplier : Nat) (k : List UInt8) :
    roundAdvance n j deadRngSet requestMultiplier k ≤ requestMultiplier := by
  unfold roundAdvance
  split <;> omega

/-- A dead RNG does not advance. -/
theorem roundAdvance_of_mem {n j : List UInt8 → Nat} {deadRngSet : List (List UInt8)}
    {requestMultiplier : Nat} {k : List UInt8} (h : k ∈ deadRngSet) :
    roundAdvance n j deadRngSet requestMultiplier k = 0 :=
  if_pos (List.contains_iff_mem.2 h)

/-- A live RNG advances to the end of its window or of its run. -/
theorem roundAdvance_of_not_mem {n j : List UInt8 → Nat} {deadRngSet : List (List UInt8)}
    {requestMultiplier : Nat} {k : List UInt8} (h : k ∉ deadRngSet) :
    roundAdvance n j deadRngSet requestMultiplier k = min requestMultiplier (n k - j k) :=
  if_neg (mt List.contains_iff_mem.1 h)

section Round

variable {M : AList fun _ : List UInt8 => List UInt8} {rngs₀ : List (List UInt8 × BufferedKexRng prf)}
  {n j : List UInt8 → Nat}

/-- An offset within the run and a window does not wrap. -/
theorem Setting.offset_lt (hS : Setting M rngs₀ n) {e : List UInt8 × BufferedKexRng prf}
    (he : e ∈ rngs₀) (hj : j e.1 ≤ n e.1) {i : Nat} (hi : i ≤ 1000) :
    e.2.counter.toNat + (j e.1 + i) < 2 ^ 64 := by
  have := hS.bound e he
  have := hS.le_size e he
  omega

/-- The outputs of one RNG at offsets that do not wrap are distinct. -/
theorem Setting.offset_eq (hS : Setting M rngs₀ n) {e : List UInt8 × BufferedKexRng prf}
    (he : e ∈ rngs₀) (hj : j e.1 ≤ n e.1) {i i' : Nat} (hi : i ≤ 1000) (hi' : i' ≤ 1000)
    (h : e.2.outputAt (j e.1 + i) = e.2.outputAt (j e.1 + i')) : i = i' := by
  have := (eq_of_outputAt_eq hS.distinct hS.nodup he he (hS.offset_lt he hj hi)
    (hS.offset_lt he hj hi') h).2
  omega

/-- Different RNGs never share an output. -/
theorem Setting.pairwise_outputAt_ne (hS : Setting M rngs₀ n) :
    (advanceEach rngs₀ j).Pairwise fun e₁ e₂ => ∀ i i', e₁.2.outputAt i ≠ e₂.2.outputAt i' := by
  rw [advanceEach, List.pairwise_map]
  refine (List.pairwise_map.1 hS.nodup).imp_of_mem fun he₁ he₂ hkey i i' heq => hkey ?_
  simp only [BufferedKexRng.outputAt, BufferedKexRng.secret_iterate_advance] at heq
  exact (hS.distinct _ he₁ _ he₂ _ _ heq).1

/-- A round asks for an RNG's output at an offset within its window exactly
when the RNG is live: no other RNG's window holds it. -/
theorem mem_roundSearchKeys_iff (hS : Setting M rngs₀ n) {set : UserRngSet prf}
    (hrngs : set.rngs = advanceEach rngs₀ j) (hj : ∀ e ∈ rngs₀, j e.1 ≤ n e.1)
    {deadRngSet : List (List UInt8)} {requestMultiplier : Nat} (hm : requestMultiplier ≤ 1000)
    {e : List UInt8 × BufferedKexRng prf} (he : e ∈ rngs₀) {i : Nat} (hi : i ≤ requestMultiplier) :
    e.2.outputAt (j e.1 + i) ∈ roundSearchKeys set deadRngSet requestMultiplier ↔
      e.1 ∉ deadRngSet ∧ i < requestMultiplier := by
  rw [mem_roundSearchKeys, hrngs, advanceEach]
  constructor
  · rintro ⟨e', he', hdead, i', hi', hout⟩
    obtain ⟨e'', he'', rfl⟩ := List.mem_map.1 he'
    rw [BufferedKexRng.outputAt_iterate_advance] at hout
    obtain ⟨rfl, hoff⟩ := eq_of_outputAt_eq hS.distinct hS.nodup he'' he
      (hS.offset_lt he'' (hj e'' he'') (show i' ≤ 1000 by omega))
      (hS.offset_lt he (hj e he) (show i ≤ 1000 by omega)) hout
    exact ⟨hdead, by omega⟩
  · rintro ⟨hdead, hi'⟩
    exact ⟨_, List.mem_map_of_mem he, hdead, i, hi', BufferedKexRng.outputAt_iterate_advance _ _ _⟩

/-- The map a round collects holds, at an RNG's output within its window, the
server's payload when the RNG is live, and nothing otherwise. -/
theorem lookup_roundMap {srv : HonestViewServer} (hS : Setting srv.txos rngs₀ n)
    {set : UserRngSet prf} (hrngs : set.rngs = advanceEach rngs₀ j)
    (hj : ∀ e ∈ rngs₀, j e.1 ≤ n e.1) {deadRngSet : List (List UInt8)} {requestMultiplier : Nat}
    (hm : requestMultiplier ≤ 1000) {e : List UInt8 × BufferedKexRng prf} (he : e ∈ rngs₀)
    {i : Nat} (hi : i ≤ requestMultiplier) {Rec : Type} :
    ((((roundSearchKeys set deadRngSet requestMultiplier).map srv.searchResult).foldl collectResult
        (⟨∅, [], []⟩ : SearchBuffers Rec)).txResultMap.lookup (e.2.outputAt (j e.1 + i))) =
      if e.1 ∉ deadRngSet ∧ i < requestMultiplier then srv.txos.lookup (e.2.outputAt (j e.1 + i))
      else none := by
  rw [HonestViewServer.lookup_foldl_collectResult, AList.lookup_empty, Option.or_none]
  by_cases hlive : e.1 ∉ deadRngSet ∧ i < requestMultiplier
  · rw [if_pos ((mem_roundSearchKeys_iff hS hrngs hj hm he hi).2 hlive), if_pos hlive]
  · rw [if_neg (mt (mem_roundSearchKeys_iff hS hrngs hj hm he hi).1 hlive), if_neg hlive]

/-- In a round every RNG's run in the collected map ends where
{lean}`roundAdvance` says: a live RNG finds its window up to the end of its
run, a dead one finds nothing. -/
theorem firstMiss_roundMap {srv : HonestViewServer} (hS : Setting srv.txos rngs₀ n)
    {set : UserRngSet prf} (hrngs : set.rngs = advanceEach rngs₀ j)
    (hj : ∀ e ∈ rngs₀, j e.1 ≤ n e.1) {deadRngSet : List (List UInt8)} {requestMultiplier : Nat}
    (hm : requestMultiplier ≤ 1000) {e : List UInt8 × BufferedKexRng prf} (he : e ∈ rngs₀)
    {Rec : Type} :
    FirstMiss (((roundSearchKeys set deadRngSet requestMultiplier).map srv.searchResult).foldl
        collectResult (⟨∅, [], []⟩ : SearchBuffers Rec)).txResultMap
      (BufferedKexRng.advance^[j e.1] e.2) (roundAdvance n j deadRngSet requestMultiplier e.1) := by
  obtain ⟨hfound, hmiss⟩ := hS.firstMiss e he
  have hle := roundAdvance_le n j deadRngSet requestMultiplier e.1
  refine ⟨fun i hi => ?_, ?_⟩
  · have hlive : e.1 ∉ deadRngSet := fun hdead => by
      rw [roundAdvance_of_mem hdead] at hi
      exact Nat.not_lt_zero i hi
    have hrun : i < n e.1 - j e.1 := by
      rw [roundAdvance_of_not_mem hlive] at hi
      omega
    rw [BufferedKexRng.outputAt_iterate_advance, ← AList.lookup_isSome,
      lookup_roundMap hS hrngs hj hm he (by omega), if_pos ⟨hlive, by omega⟩, AList.lookup_isSome]
    exact hfound _ (by omega)
  · rw [BufferedKexRng.outputAt_iterate_advance, ← AList.lookup_eq_none,
      lookup_roundMap hS hrngs hj hm he hle]
    split_ifs with hlive
    · have hend : j e.1 + roundAdvance n j deadRngSet requestMultiplier e.1 = n e.1 := by
        have hadv : roundAdvance n j deadRngSet requestMultiplier e.1 =
            min requestMultiplier (n e.1 - j e.1) := roundAdvance_of_not_mem hlive.1
        have := hj e he
        omega
      rw [hend]
      exact AList.lookup_eq_none.2 hmiss
    · rfl

/-- One round's matching: every RNG advances by {lean}`roundAdvance`, the
records are the successes among the decryptions of the outputs passed over in
the round, and the failures among them are among the round's errors. -/
theorem ingestTxOutSearchResults_round {srv : HonestViewServer} (hS : Setting srv.txos rngs₀ n)
    {set : UserRngSet prf} (hrngs : set.rngs = advanceEach rngs₀ j)
    (hj : ∀ e ∈ rngs₀, j e.1 ≤ n e.1) (deadRngSet : List (List UInt8)) {requestMultiplier : Nat}
    (hm : requestMultiplier ≤ 1000) {Rec : Type}
    (decryptTxOutResult : List UInt8 → Except TxOutRecoveryError Rec) :
    (set.ingestTxOutSearchResults decryptTxOutResult
        ((roundSearchKeys set deadRngSet requestMultiplier).map srv.searchResult)).1.rngs =
      advanceEach rngs₀ (fun k => j k + roundAdvance n j deadRngSet requestMultiplier k) ∧
    (set.ingestTxOutSearchResults decryptTxOutResult
        ((roundSearchKeys set deadRngSet requestMultiplier).map srv.searchResult)).2.1 =
      (rngs₀.flatMap fun e => decryptedRun decryptTxOutResult srv.txos
        (BufferedKexRng.advance^[j e.1] e.2)
        (roundAdvance n j deadRngSet requestMultiplier e.1)).filterMap Except.toOption ∧
    ((rngs₀.flatMap fun e => decryptedRun decryptTxOutResult srv.txos
        (BufferedKexRng.advance^[j e.1] e.2)
        (roundAdvance n j deadRngSet requestMultiplier e.1)).filterMap Except.toError?).Sublist
      (set.ingestTxOutSearchResults decryptTxOutResult
        ((roundSearchKeys set deadRngSet requestMultiplier).map srv.searchResult)).2.2 := by
  set collected := ((roundSearchKeys set deadRngSet requestMultiplier).map srv.searchResult).foldl
    collectResult (⟨∅, [], []⟩ : SearchBuffers Rec) with hcollected
  set a := roundAdvance n j deadRngSet requestMultiplier with ha
  have hale : ∀ k, a k ≤ requestMultiplier := roundAdvance_le n j deadRngSet requestMultiplier
  have hrun : ∀ e' ∈ set.rngs, (∀ i < a e'.1, e'.2.outputAt i ∈ collected.txResultMap) ∧
      e'.2.outputAt (a e'.1) ∉ collected.txResultMap := by
    intro e' he'
    rw [hrngs, advanceEach] at he'
    obtain ⟨e, he, rfl⟩ := List.mem_map.1 he'
    exact firstMiss_roundMap hS hrngs hj hm he
  have hinj : ∀ e' ∈ set.rngs, ∀ i ≤ a e'.1, ∀ i' ≤ a e'.1,
      e'.2.outputAt i = e'.2.outputAt i' → i = i' := by
    intro e' he' i hi i' hi' heq
    rw [hrngs, advanceEach] at he'
    obtain ⟨e, he, rfl⟩ := List.mem_map.1 he'
    dsimp only at hi hi' heq
    rw [BufferedKexRng.outputAt_iterate_advance, BufferedKexRng.outputAt_iterate_advance] at heq
    have := hale e.1
    exact hS.offset_eq he (hj e he) (by omega) (by omega) heq
  obtain ⟨hrs, hss, hfs⟩ := drainRngs_spec decryptTxOutResult a hrun hinj
    (hrngs ▸ hS.pairwise_outputAt_ne)
  have hruns : ∀ e ∈ rngs₀,
      decryptedRun decryptTxOutResult collected.txResultMap (BufferedKexRng.advance^[j e.1] e.2)
        (a e.1) =
      decryptedRun decryptTxOutResult srv.txos (BufferedKexRng.advance^[j e.1] e.2) (a e.1) := by
    intro e he
    refine decryptedRun_congr decryptTxOutResult fun i hi => ?_
    have hlive : e.1 ∉ deadRngSet := fun hdead => by
      rw [ha, roundAdvance_of_mem hdead] at hi
      exact Nat.not_lt_zero i hi
    have := hale e.1
    rw [BufferedKexRng.outputAt_iterate_advance, hcollected,
      lookup_roundMap hS hrngs hj hm he (by omega), if_pos ⟨hlive, by omega⟩]
  refine ⟨?_, ?_, ?_⟩
  · show (drainRngs decryptTxOutResult set.rngs collected).1 = _
    rw [hrs, hrngs, ← advanceEach_advanceEach]
    rfl
  · show (drainRngs decryptTxOutResult set.rngs collected).2.successes = _
    rw [hss, hcollected, successes_foldl_collectResult, ← hcollected, List.nil_append, hrngs,
      advanceEach, List.flatMap_map, List.filterMap_flatMap]
    exact List.flatMap_congr fun e he => by rw [hruns e he]
  · show List.Sublist _ ((drainRngs decryptTxOutResult set.rngs collected).2.failures ++ _)
    have hfailures : (drainRngs decryptTxOutResult set.rngs collected).2.failures =
        collected.failures ++ (rngs₀.flatMap fun e => decryptedRun decryptTxOutResult srv.txos
          (BufferedKexRng.advance^[j e.1] e.2) (a e.1)).filterMap Except.toError? := by
      rw [hfs, hrngs, advanceEach, List.flatMap_map, List.filterMap_flatMap]
      congr 1
      exact List.flatMap_congr fun e he => by rw [hruns e he]
    rw [hfailures]
    exact (List.sublist_append_right _ _).trans (List.sublist_append_left _ _)

/-- The dead test on indices that do not wrap: an RNG advanced by
{lean}`a` is below its old index plus {lean}`m` exactly when {lean}`a < m`. -/
theorem index_lt_iff {r : BufferedKexRng prf} {j a m : Nat}
    (ha : r.counter.toNat + (j + a) < 2 ^ 64) (hm : r.counter.toNat + (j + m) < 2 ^ 64) :
    (BufferedKexRng.advance^[j + a] r).index <
        (BufferedKexRng.advance^[j] r).index + UInt64.ofNat m ↔ a < m := by
  have hj : (r.counter + UInt64.ofNat j).toNat = r.counter.toNat + j := toNat_add_ofNat (by omega)
  have hjm : (r.counter + UInt64.ofNat j + UInt64.ofNat m).toNat = r.counter.toNat + j + m := by
    rw [toNat_add_ofNat (by rw [hj]; omega), hj]
  simp only [BufferedKexRng.index, BufferedKexRng.counter_iterate_advance, UInt64.lt_iff_toNat_lt]
  rw [toNat_add_ofNat ha, hjm]
  omega

/-- The dead set after a round: the RNGs that advanced less than the
multiplier. -/
theorem deadRngs_round (hS : Setting M rngs₀ n) (hj : ∀ e ∈ rngs₀, j e.1 ≤ n e.1)
    {a : List UInt8 → Nat} {requestMultiplier : Nat} (hm : requestMultiplier ≤ 1000)
    (ha : ∀ k, a k ≤ requestMultiplier) :
    deadRngs (advanceEach rngs₀ j) (advanceEach rngs₀ fun k => j k + a k) requestMultiplier =
      (rngs₀.filter fun e => a e.1 < requestMultiplier).map Prod.fst := by
  have hlookup : ∀ e ∈ rngs₀,
      (advanceEach rngs₀ j).lookup e.1 = some (BufferedKexRng.advance^[j e.1] e.2) :=
    fun e he => lookup_eq_some_of_mem (by rw [map_fst_advanceEach]; exact hS.nodup)
      (show (e.1, BufferedKexRng.advance^[j e.1] e.2) ∈ advanceEach rngs₀ j from
        List.mem_map_of_mem he)
  unfold deadRngs
  rw [show advanceEach rngs₀ (fun k => j k + a k) =
      rngs₀.map fun e => (e.1, BufferedKexRng.advance^[j e.1 + a e.1] e.2) from rfl,
    List.filter_map, List.map_map]
  congr 1
  refine List.filter_congr fun e he => ?_
  have := ha e.1
  simp only [Function.comp_apply, hlookup e he]
  exact decide_eq_decide.2 (index_lt_iff (hS.offset_lt he (hj e he) (by omega))
    (hS.offset_lt he (hj e he) hm))

end Round

/-! ## The loop -/

/-- The invariant between the rounds of the loop: every RNG stands at offset
{lean}`j` within its run, a dead one at the end of it, the stored count is the
one the loop started with, and the records and decryption errors so far are
the decryptions of the outputs passed over. -/
structure LoopInv {Rec ConnError : Type}
    (decryptTxOutResult : List UInt8 → Except TxOutRecoveryError Rec)
    (M : AList fun _ : List UInt8 => List UInt8) (rngs₀ : List (List UInt8 × BufferedKexRng prf))
    (n : List UInt8 → Nat) (c₀ : Nat) (j : List UInt8 → Nat) (requestMultiplier : Nat)
    (deadRngSet : List (List UInt8)) (set : UserRngSet prf) (results : List Rec)
    (errs : List (TxOutPollingError ConnError)) : Prop where
  rngs_eq : set.rngs = advanceEach rngs₀ j
  count_eq : set.highestProcessedBlockCount = c₀
  le_firstMiss : ∀ e ∈ rngs₀, j e.1 ≤ n e.1
  dead_sublist : deadRngSet.Sublist (rngs₀.map Prod.fst)
  dead_done : ∀ e ∈ rngs₀, e.1 ∈ deadRngSet → j e.1 = n e.1
  multiplier_pos : 0 < requestMultiplier
  multiplier_le : requestMultiplier ≤ 1000
  recovered : ∃ decErrs : List TxOutRecoveryError,
    (results.map Except.ok ++ decErrs.map Except.error).Perm
      (rngs₀.flatMap fun e : List UInt8 × BufferedKexRng prf =>
        decryptedRun decryptTxOutResult M e.2 (j e.1)) ∧
    (decErrs.map TxOutPollingError.txOutRecovery).Subperm errs

/-- What is left of the runs, plus one for every live RNG. -/
def potential (n j : List UInt8 → Nat) (deadRngSet : List (List UInt8))
    (rngs₀ : List (List UInt8 × BufferedKexRng prf)) : Nat :=
  (rngs₀.map fun e => n e.1 - j e.1 + if deadRngSet.contains e.1 then 0 else 1).sum

/-- Counts that agree on the keys of the RNGs advance them alike. -/
theorem advanceEach_congr {rngs : List (List UInt8 × BufferedKexRng prf)} {j j' : List UInt8 → Nat}
    (h : ∀ e ∈ rngs, j e.1 = j' e.1) : advanceEach rngs j = advanceEach rngs j' :=
  List.map_congr_left fun e he => by rw [h e he]

/-- A key is among those of the RNGs that pass a test on their key exactly
when its RNG passes it. -/
theorem mem_map_fst_filter {rngs : List (List UInt8 × BufferedKexRng prf)}
    {p : List UInt8 → Bool} {e : List UInt8 × BufferedKexRng prf} (he : e ∈ rngs) :
    e.1 ∈ (rngs.filter fun e => p e.1).map Prod.fst ↔ p e.1 := by
  constructor
  · intro hmem
    obtain ⟨e', he', hkey⟩ := List.mem_map.1 hmem
    rw [← hkey]
    exact (List.mem_filter.1 he').2
  · intro hp
    exact List.mem_map_of_mem (List.mem_filter.2 ⟨he, hp⟩)

/-- Two halves of a permutation may swap their middle parts. -/
theorem perm_append_append_swap {α : Type} (a b c d : List α) :
    (a ++ b ++ (c ++ d)).Perm (a ++ c ++ (b ++ d)) := by
  simp only [List.append_assoc]
  refine .append_left a ?_
  rw [← List.append_assoc, ← List.append_assoc]
  exact List.perm_append_comm.append_right d

section Loop

variable {Rec ConnError : Type} {decryptTxOutResult : List UInt8 → Except TxOutRecoveryError Rec}
  {M : AList fun _ : List UInt8 => List UInt8} {rngs₀ : List (List UInt8 × BufferedKexRng prf)}
  {n : List UInt8 → Nat} {c₀ : Nat} {j : List UInt8 → Nat} {requestMultiplier : Nat}
  {deadRngSet : List (List UInt8)} {set : UserRngSet prf} {results : List Rec}
  {errs : List (TxOutPollingError ConnError)}

/-- The keys of the RNGs are those the loop started with. -/
theorem LoopInv.nodup
    (hinv : LoopInv decryptTxOutResult M rngs₀ n c₀ j requestMultiplier deadRngSet set results errs) :
    (rngs₀.map Prod.fst).Nodup := by
  rw [← map_fst_advanceEach rngs₀ j, ← hinv.rngs_eq]
  exact set.nodup_keys

/-- While the loop goes on, some RNG is live. -/
theorem LoopInv.exists_live
    (hinv : LoopInv decryptTxOutResult M rngs₀ n c₀ j requestMultiplier deadRngSet set results errs)
    (hlive : ¬set.rngs.length ≤ deadRngSet.length) : ∃ e ∈ rngs₀, e.1 ∉ deadRngSet := by
  by_contra hall
  simp only [not_exists, not_and, not_not] at hall
  have hsub : rngs₀.map Prod.fst ⊆ deadRngSet := fun k hk => by
    obtain ⟨e, he, rfl⟩ := List.mem_map.1 hk
    exact hall e he
  have hle := (List.subperm_of_subset hinv.nodup hsub).length_le
  rw [hinv.rngs_eq, advanceEach, List.length_map] at hlive
  rw [List.length_map] at hle
  exact hlive hle

/-- When the loop stops every RNG is at the end of its run. -/
theorem LoopInv.done
    (hinv : LoopInv decryptTxOutResult M rngs₀ n c₀ j requestMultiplier deadRngSet set results errs)
    (hdead : set.rngs.length ≤ deadRngSet.length) : ∀ e ∈ rngs₀, j e.1 = n e.1 := by
  have hlen : (rngs₀.map Prod.fst).length ≤ deadRngSet.length := by
    rw [hinv.rngs_eq, advanceEach, List.length_map] at hdead
    rwa [List.length_map]
  have hall := hinv.dead_sublist.eq_of_length_le hlen
  intro e he
  exact hinv.dead_done e he (hall ▸ List.mem_map_of_mem he)

/-- A round lowers the potential: a live RNG either advances or dies, a dead
one stays where it is. -/
theorem potential_round_lt (hj : ∀ e ∈ rngs₀, j e.1 ≤ n e.1)
    (hdone : ∀ e ∈ rngs₀, e.1 ∈ deadRngSet → j e.1 = n e.1) (hm : 0 < requestMultiplier)
    (hlive : ∃ e ∈ rngs₀, e.1 ∉ deadRngSet) :
    potential n (fun k => j k + roundAdvance n j deadRngSet requestMultiplier k)
        ((rngs₀.filter fun e => roundAdvance n j deadRngSet requestMultiplier e.1 <
          requestMultiplier).map Prod.fst) rngs₀ <
      potential n j deadRngSet rngs₀ := by
  unfold potential
  refine List.sum_lt_sum _ _ (fun e he => ?_) ?_
  · rw [if_congr (List.contains_iff_mem.trans (mem_map_fst_filter (p := fun k =>
        decide (roundAdvance n j deadRngSet requestMultiplier k < requestMultiplier)) he))
      rfl rfl, if_congr List.contains_iff_mem rfl rfl]
    have := hj e he
    have := hdone e he
    unfold roundAdvance
    split_ifs <;> simp_all <;> omega
  · obtain ⟨e, he, hlive⟩ := hlive
    refine ⟨e, he, ?_⟩
    rw [if_congr (List.contains_iff_mem.trans (mem_map_fst_filter (p := fun k =>
        decide (roundAdvance n j deadRngSet requestMultiplier k < requestMultiplier)) he))
      rfl rfl, if_congr List.contains_iff_mem rfl rfl]
    have := hj e he
    unfold roundAdvance
    split_ifs <;> simp_all <;> omega

/-- One round against the honest server keeps the invariant, with every RNG
advanced by {lean}`roundAdvance` and the dead set recomputed, and lowers the
potential. -/
theorem LoopInv.round {srv : HonestViewServer} (hS : Setting srv.txos rngs₀ n)
    (hinv : LoopInv decryptTxOutResult srv.txos rngs₀ n c₀ j requestMultiplier deadRngSet set
      results errs)
    (hlive : ¬set.rngs.length ≤ deadRngSet.length) :
    LoopInv decryptTxOutResult srv.txos rngs₀ n c₀
        (fun k => j k + roundAdvance n j deadRngSet requestMultiplier k)
        (nextRequestMultiplier requestMultiplier)
        (deadRngs set.rngs (set.ingestTxOutSearchResults decryptTxOutResult
          ((roundSearchKeys set deadRngSet requestMultiplier).map srv.searchResult)).1.rngs
          requestMultiplier)
        (set.ingestTxOutSearchResults decryptTxOutResult
          ((roundSearchKeys set deadRngSet requestMultiplier).map srv.searchResult)).1
        (results ++ (set.ingestTxOutSearchResults decryptTxOutResult
          ((roundSearchKeys set deadRngSet requestMultiplier).map srv.searchResult)).2.1)
        (errs ++ (set.ingestTxOutSearchResults decryptTxOutResult
          ((roundSearchKeys set deadRngSet requestMultiplier).map srv.searchResult)).2.2.map
            .txOutRecovery) ∧
      potential n (fun k => j k + roundAdvance n j deadRngSet requestMultiplier k)
          (deadRngs set.rngs (set.ingestTxOutSearchResults decryptTxOutResult
            ((roundSearchKeys set deadRngSet requestMultiplier).map srv.searchResult)).1.rngs
            requestMultiplier) rngs₀ <
        potential n j deadRngSet rngs₀ := by
  obtain ⟨hrs, hss, hfs⟩ := ingestTxOutSearchResults_round hS hinv.rngs_eq hinv.le_firstMiss
    deadRngSet hinv.multiplier_le decryptTxOutResult
  have hale := roundAdvance_le n j deadRngSet requestMultiplier
  have hdead : deadRngs set.rngs (set.ingestTxOutSearchResults decryptTxOutResult
      ((roundSearchKeys set deadRngSet requestMultiplier).map srv.searchResult)).1.rngs
        requestMultiplier =
      (rngs₀.filter fun e => roundAdvance n j deadRngSet requestMultiplier e.1 <
        requestMultiplier).map Prod.fst := by
    rw [hrs, hinv.rngs_eq]
    exact deadRngs_round hS hinv.le_firstMiss hinv.multiplier_le hale
  refine ⟨⟨hrs, ?_, fun e he => ?_, ?_, fun e he hmem => ?_, pos_nextRequestMultiplier
    hinv.multiplier_pos, nextRequestMultiplier_le _, ?_⟩, ?_⟩
  · rw [highestProcessedBlockCount_ingestTxOutSearchResults]
    exact hinv.count_eq
  · have := hinv.le_firstMiss e he
    show j e.1 + roundAdvance n j deadRngSet requestMultiplier e.1 ≤ n e.1
    unfold roundAdvance
    split <;> omega
  · rw [hdead]
    exact List.Sublist.map Prod.fst List.filter_sublist
  · rw [hdead, mem_map_fst_filter (p := fun k =>
      decide (roundAdvance n j deadRngSet requestMultiplier k < requestMultiplier)) he] at hmem
    have hlt := of_decide_eq_true hmem
    have := hinv.le_firstMiss e he
    show j e.1 + roundAdvance n j deadRngSet requestMultiplier e.1 = n e.1
    by_cases hdeadBefore : e.1 ∈ deadRngSet
    · rw [roundAdvance_of_mem hdeadBefore, hinv.dead_done e he hdeadBefore, Nat.add_zero]
    · rw [roundAdvance_of_not_mem hdeadBefore] at hlt ⊢
      omega
  · obtain ⟨decErrs, hperm, hsub⟩ := hinv.recovered
    set roundRuns := rngs₀.flatMap fun e => decryptedRun decryptTxOutResult srv.txos
      (BufferedKexRng.advance^[j e.1] e.2) (roundAdvance n j deadRngSet requestMultiplier e.1)
    refine ⟨decErrs ++ roundRuns.filterMap Except.toError?, ?_, ?_⟩
    · rw [hss, List.map_append, List.map_append]
      refine (perm_append_append_swap _ _ _ _).trans ?_
      refine (hperm.append (Except.perm_filterMap_toOption_append_toError? roundRuns)).trans ?_
      refine (List.flatMap_append_perm _ _ _).trans ?_
      rw [List.flatMap_congr fun e _ => (decryptedRun_add decryptTxOutResult srv.txos e.2 _ _).symm]
    · rw [List.map_append]
      exact List.Subperm.append hsub (hfs.map _).subperm
  · rw [hdead]
    exact potential_round_lt hinv.le_firstMiss hinv.dead_done hinv.multiplier_pos
      (hinv.exists_live hlive)

/-- The run lemma of the loop: from a state of the invariant whose potential
is below the fuel, the loop ends with every RNG at the end of its run, the
stored count as it was, the server's count as the minimum, and every output
passed over decrypted once.  The induction is on the fuel, one round at a
time. -/
theorem pollLoop_spec {srv : HonestViewServer} (hS : Setting srv.txos rngs₀ n) :
    ∀ (fuel : Nat) {j : List UInt8 → Nat} {requestMultiplier : Nat}
      {deadRngSet : List (List UInt8)} {set : UserRngSet prf} {results : List Rec}
      {errs : List (TxOutPollingError ConnError)},
      LoopInv decryptTxOutResult srv.txos rngs₀ n c₀ j requestMultiplier deadRngSet set results
        errs →
      potential n j deadRngSet rngs₀ < fuel →
      ∃ set' results' errs',
        pollLoop decryptTxOutResult (srv.request ConnError) fuel requestMultiplier deadRngSet
            srv.highestProcessedBlockCount set results errs =
          some (set', results', errs', some srv.highestProcessedBlockCount) ∧
        set'.rngs = advanceEach rngs₀ n ∧ set'.highestProcessedBlockCount = c₀ ∧
        ∃ decErrs : List TxOutRecoveryError,
          (results'.map Except.ok ++ decErrs.map Except.error).Perm
            (rngs₀.flatMap fun e : List UInt8 × BufferedKexRng prf =>
              decryptedRun decryptTxOutResult srv.txos e.2 (n e.1)) ∧
          (decErrs.map TxOutPollingError.txOutRecovery).Subperm errs'
  | 0, _, _, _, _, _, _, _, hlt => absurd hlt (Nat.not_lt_zero _)
  | fuel + 1, j, requestMultiplier, deadRngSet, set, results, errs, hinv, hlt => by
      by_cases hlen : set.rngs.length ≤ deadRngSet.length
      · have hdone := hinv.done hlen
        obtain ⟨decErrs, hperm, hsub⟩ := hinv.recovered
        refine ⟨set, results, errs, pollLoop_of_length_le decryptTxOutResult _ hlen, ?_,
          hinv.count_eq, decErrs, ?_, hsub⟩
        · rw [hinv.rngs_eq]
          exact advanceEach_congr hdone
        · rwa [List.flatMap_congr fun e he => by rw [hdone e he]] at hperm
      · obtain ⟨hinv', hlt'⟩ := hinv.round hS hlen
        rw [pollLoop_of_ok decryptTxOutResult _ hlen rfl]
        simp only [min_self]
        exact pollLoop_spec hS fuel hinv' (by omega)

end Loop

/-- The end of every RNG's run, found by counting found outputs up to one more
than the map's size, is a first miss when the outputs are distinct and do not
wrap: a longer run would be more distinct keys than the map has. -/
theorem setting_foundRun {M : AList fun _ : List UInt8 => List UInt8}
    {rngs₀ : List (List UInt8 × BufferedKexRng prf)} (hd : DistinctOutputs rngs₀)
    (hnodup : (rngs₀.map Prod.fst).Nodup)
    (hbound : ∀ e ∈ rngs₀, e.2.counter.toNat + M.keys.length + 1000 < 2 ^ 64) :
    Setting M rngs₀ fun k =>
      ((rngs₀.lookup k).map fun r => foundRun M r (M.keys.length + 1)).getD 0 := by
  have hn : ∀ e ∈ rngs₀, ((rngs₀.lookup e.1).map fun r => foundRun M r (M.keys.length + 1)).getD 0 =
      foundRun M e.2 (M.keys.length + 1) := fun e he => by
    rw [lookup_eq_some_of_mem hnodup he]
    rfl
  have hlt : ∀ e ∈ rngs₀, foundRun M e.2 (M.keys.length + 1) < M.keys.length + 1 := by
    intro e he
    refine lt_of_le_of_ne (foundRun_le _ _) fun hfull => ?_
    have hle := le_length_keys (a := M.keys.length + 1)
      (fun i hi => mem_of_lt_foundRun (by rw [hfull]; exact hi))
      (fun i hi i' hi' heq => (eq_of_outputAt_eq hd hnodup he he
        (by have := hbound e he; omega) (by have := hbound e he; omega) heq).2)
    omega
  refine ⟨fun e he => ?_, fun e he => ?_, hd, hnodup, hbound⟩
  · rw [hn e he]
    exact ⟨fun i hi => mem_of_lt_foundRun hi, not_mem_foundRun (hlt e he)⟩
  · rw [hn e he]
    exact Nat.le_of_lt_succ (hlt e he)

/-! ## Polling an honest server -/

section Poll

variable {Sk Pt Rec ConnError : Type} (decompress : List UInt8 → Option Pt)
  (keyExchange : Sk → Pt → List UInt8)
  (decryptTxOutResult : List UInt8 → Except TxOutRecoveryError Rec)

/-- Polling an honest server from a set whose RNGs, after the server's new RNG
records are added, have distinct outputs and indices far from the largest
{lit}`u64`: with enough fuel the poll returns; every RNG has advanced to the
first index at or after its old one whose output the server does not hold; each
output skipped over gives its payload's decryption, as a record or as a
decryption error; and the stored count becomes the server's. -/
theorem poll_recovers_gap_free_continuation (srv : HonestViewServer) (set : UserRngSet prf)
    (viewKey : Sk) {set₀ : UserRngSet prf} {recordErrs : List (TxOutPollingError ConnError)}
    (hrecords : ingestRngRecords decompress keyExchange viewKey set
      (srv.rngRecordsAfter set.nextStartFromUserEventId) = (set₀, recordErrs))
    (hcount : set.highestProcessedBlockCount < srv.highestProcessedBlockCount)
    (hdistinct : DistinctOutputs set₀.rngs)
    (hbound : ∀ e ∈ set₀.rngs, e.2.counter.toNat + srv.txos.keys.length + 1000 < 2 ^ 64) :
    ∃ N, ∀ fuel, N ≤ fuel → ∃ results errs set',
      poll decompress keyExchange decryptTxOutResult (srv.request ConnError) fuel set viewKey =
        some ((results, errs), set') ∧
      set'.highestProcessedBlockCount = srv.highestProcessedBlockCount ∧
      ∃ n : List UInt8 → Nat, (∀ e ∈ set₀.rngs, FirstMiss srv.txos e.2 (n e.1)) ∧
        set'.rngs = advanceEach set₀.rngs n ∧
        ∃ decErrs : List TxOutRecoveryError,
          (results.map Except.ok ++ decErrs.map Except.error).Perm
            (set₀.rngs.flatMap fun e : List UInt8 × BufferedKexRng prf =>
              decryptedRun decryptTxOutResult srv.txos e.2 (n e.1)) ∧
          (decErrs.map TxOutPollingError.txOutRecovery).Subperm errs := by
  have hS := setting_foundRun hdistinct set₀.nodup_keys hbound
  set n := fun k => ((set₀.rngs.lookup k).map fun r =>
    foundRun srv.txos r (srv.txos.keys.length + 1)).getD 0
  have hcount₀ : set₀.highestProcessedBlockCount = set.highestProcessedBlockCount := by
    rw [← highestProcessedBlockCount_ingestRngRecords decompress keyExchange viewKey set
      (srv.rngRecordsAfter set.nextStartFromUserEventId), hrecords]
  have hinit : LoopInv decryptTxOutResult srv.txos set₀.rngs n set.highestProcessedBlockCount
      (fun _ => 0) 2 [] { set₀ with nextStartFromUserEventId := srv.nextStartFromUserEventId } []
      recordErrs :=
    ⟨(advanceEach_zero set₀.rngs).symm, hcount₀, fun _ _ => Nat.zero_le _,
      List.nil_sublist _, fun _ _ hmem => absurd hmem List.not_mem_nil, by decide, by decide,
      [], by simp, by simp⟩
  refine ⟨potential n (fun _ => 0) [] set₀.rngs + 1, fun fuel hfuel => ?_⟩
  obtain ⟨set', results', errs', hloop, hrngs, hcount', hrecovered⟩ :=
    pollLoop_spec hS fuel hinit (by omega)
  rw [poll_of_ok decompress keyExchange decryptTxOutResult (srv.request ConnError) rfl hcount]
  simp only [hrecords, hloop, Option.map_some]
  refine ⟨results', errs', { set' with highestProcessedBlockCount := srv.highestProcessedBlockCount },
    by rw [if_pos (hcount' ▸ hcount)], rfl, n, hS.firstMiss, hrngs, hrecovered⟩

/-! ## Examples -/

/-- The PRF of the examples: the counter written as that many zero bytes, so
that no two counters share an output. -/
def zerosPrf (_secret : List UInt8) (counter : UInt64) : List UInt8 :=
  List.replicate counter.toNat 0

/-- Distinct counters give distinct outputs of {lean}`zerosPrf`. -/
theorem zerosPrf_injective (secret secret' : List UInt8) {a b : UInt64}
    (h : zerosPrf secret a = zerosPrf secret' b) : a = b := by
  have hlen := congrArg List.length h
  simp only [zerosPrf, List.length_replicate] at hlen
  exact UInt64.toNat_inj.1 hlen

/-- A single RNG whose PRF is injective has distinct outputs. -/
theorem distinctOutputs_singleton {k : List UInt8} {r : BufferedKexRng prf}
    (hinj : ∀ a b, prf r.secret a = prf r.secret b → a = b) : DistinctOutputs [(k, r)] := by
  intro e₁ he₁ e₂ he₂ a b h
  rw [List.mem_singleton] at he₁ he₂
  subst he₁ he₂
  exact ⟨rfl, hinj a b h⟩

/-- The PRF of the two-RNG example: the secret followed by the counter written
as that many zero bytes. -/
def taggedPrf (secret : List UInt8) (counter : UInt64) : List UInt8 :=
  secret ++ List.replicate counter.toNat 0

/-- Outputs of {lean}`taggedPrf` agree only for one secret and one counter,
among secrets of one length. -/
theorem taggedPrf_eq {s s' : List UInt8} {a b : UInt64} (hlen : s.length = s'.length)
    (h : taggedPrf s a = taggedPrf s' b) : s = s' ∧ a = b := by
  obtain ⟨hs, hzeros⟩ := List.append_inj h hlen
  refine ⟨hs, UInt64.toNat_inj.1 ?_⟩
  simpa using congrArg List.length hzeros

/-- RNGs whose secrets are their keys, all of one length, have distinct outputs
under {lean}`taggedPrf`. -/
theorem distinctOutputs_taggedPrf {rngs : List (List UInt8 × BufferedKexRng taggedPrf)}
    (hkey : ∀ e ∈ rngs, e.2.secret = e.1)
    (hlen : ∀ e ∈ rngs, ∀ e' ∈ rngs, e.1.length = e'.1.length) : DistinctOutputs rngs := by
  intro e₁ he₁ e₂ he₂ a b h
  rw [hkey e₁ he₁, hkey e₂ he₂] at h
  exact taggedPrf_eq (hlen e₁ he₁ e₂ he₂) h

/-- Two RNGs, of the secrets {lit}`[1]` and {lit}`[2]`, under those keys. -/
def twoRngSet : UserRngSet taggedPrf :=
  ⟨[([1], BufferedKexRng.fromSecret taggedPrf [1]), ([2], BufferedKexRng.fromSecret taggedPrf [2])],
    0, 0, by decide⟩

/-- A server at block count 1 holding the first output of the first RNG and the
first two of the second. -/
def threeFoundServer : HonestViewServer :=
  ⟨(((∅ : AList fun _ : List UInt8 => List UInt8).insert [1] [7]).insert [2] [8]).insert [2, 0] [9],
    1, [], 0⟩

/-- The theorem applies to the two RNGs and the server above, which hold runs of
different lengths, and the stored count becomes the server's. -/
theorem poll_recovers_gap_free_continuation_twoRngs :
    ingestRngRecords (fun _ => (none : Option Unit)) (fun (_ _ : Unit) => ([] : List UInt8)) ()
        twoRngSet (threeFoundServer.rngRecordsAfter twoRngSet.nextStartFromUserEventId) =
      (twoRngSet, ([] : List (TxOutPollingError Unit))) ∧
    twoRngSet.highestProcessedBlockCount < threeFoundServer.highestProcessedBlockCount ∧
    DistinctOutputs twoRngSet.rngs ∧
    (∀ e ∈ twoRngSet.rngs,
      e.2.counter.toNat + threeFoundServer.txos.keys.length + 1000 < 2 ^ 64) ∧
    ∃ fuel results errs set',
      poll (fun _ => (none : Option Unit)) (fun (_ _ : Unit) => ([] : List UInt8))
          (fun c => (.ok c : Except TxOutRecoveryError (List UInt8)))
          (threeFoundServer.request Unit) fuel twoRngSet () =
        some ((results, errs), set') ∧
      set'.highestProcessedBlockCount = threeFoundServer.highestProcessedBlockCount := by
  have hrecords : ingestRngRecords (fun _ => (none : Option Unit))
      (fun (_ _ : Unit) => ([] : List UInt8)) () twoRngSet
      (threeFoundServer.rngRecordsAfter twoRngSet.nextStartFromUserEventId) =
        (twoRngSet, ([] : List (TxOutPollingError Unit))) :=
    rfl
  have hdistinct : DistinctOutputs twoRngSet.rngs :=
    distinctOutputs_taggedPrf (by decide) (by decide)
  have hbound : ∀ e ∈ twoRngSet.rngs,
      e.2.counter.toNat + threeFoundServer.txos.keys.length + 1000 < 2 ^ 64 := by
    decide
  obtain ⟨N, hN⟩ := poll_recovers_gap_free_continuation (fun _ => (none : Option Unit))
    (fun (_ _ : Unit) => ([] : List UInt8))
    (fun c => (.ok c : Except TxOutRecoveryError (List UInt8))) threeFoundServer twoRngSet ()
    hrecords (by decide) hdistinct hbound
  obtain ⟨results, errs, set', hpoll, hcount, -⟩ := hN N le_rfl
  exact ⟨hrecords, by decide, hdistinct, hbound, N, results, errs, set', hpoll, hcount⟩

/-! ## An RNG at the last index -/

/-- A round against a server without payloads changes nothing. -/
theorem ingestTxOutSearchResults_of_txos_eq_empty {srv : HonestViewServer}
    (hempty : srv.txos = ∅) (set : UserRngSet prf) (keys : List (List UInt8)) :
    set.ingestTxOutSearchResults decryptTxOutResult (keys.map srv.searchResult) = (set, [], []) := by
  unfold ingestTxOutSearchResults
  simp only [HonestViewServer.foldl_collectResult_of_txos_eq_empty hempty,
    drainRngs_of_txResultMap_eq_empty decryptTxOutResult (b := ⟨∅, [], []⟩) rfl]
  rfl

/-- No index lies above the last one. -/
theorem not_index_lt_of_last {r : BufferedKexRng prf} (hlast : r.counter = 18446744073709551615)
    (x : UInt64) : ¬r.index < x := by
  have hx := UInt64.toNat_lt x
  have hmax : (18446744073709551615 : UInt64).toNat = 2 ^ 64 - 1 := rfl
  rw [BufferedKexRng.index, hlast, UInt64.lt_iff_toNat_lt, hmax]
  omega

/-- Against a server without payloads an RNG at the last index is never dead:
no round advances it, and the wrapping sum of its index and the multiplier is
not above it.  The loop asks the server again in every round and runs out of
any fuel. -/
theorem pollLoop_of_last_index {srv : HonestViewServer} (hempty : srv.txos = ∅)
    {k : List UInt8} {r : BufferedKexRng prf} (hlast : r.counter = 18446744073709551615) :
    ∀ (fuel requestMultiplier newCount : Nat) {set : UserRngSet prf} {results : List Rec}
      {errs : List (TxOutPollingError ConnError)}, set.rngs = [(k, r)] →
      pollLoop decryptTxOutResult (srv.request ConnError) fuel requestMultiplier [] newCount set
        results errs = none
  | 0, _, _, _, _, _, _ => rfl
  | fuel + 1, requestMultiplier, newCount, set, results, errs, hrngs => by
      have hlive : ¬set.rngs.length ≤ ([] : List (List UInt8)).length := by simp [hrngs]
      have hdead : deadRngs set.rngs set.rngs requestMultiplier = [] := by
        simp [hrngs, deadRngs, not_index_lt_of_last hlast]
      rw [pollLoop_of_ok decryptTxOutResult (srv.request ConnError) hlive rfl]
      simp only [ingestTxOutSearchResults_of_txos_eq_empty decryptTxOutResult hempty, hdead]
      exact pollLoop_of_last_index hempty hlast fuel _ _ hrngs

/-- The RNG of the empty secret at the last index, under the key {lit}`[1]`. -/
def lastIndexRngSet : UserRngSet zerosPrf :=
  ⟨[(([1] : List UInt8), ⟨[], 18446744073709551615, zerosPrf [] 18446744073709551615, rfl⟩)], 0,
    0, List.nodup_singleton _⟩

/-- A server at block count 1 with no payloads and no records. -/
def emptyServer : HonestViewServer :=
  ⟨∅, 1, [], 0⟩

/-- The set and the server above meet every hypothesis of
{lit}`poll_recovers_gap_free_continuation` but the bound on the index, and
{lit}`poll` never returns. -/
theorem poll_never_returns_at_last_index :
    ingestRngRecords (fun _ => (none : Option Unit)) (fun (_ _ : Unit) => ([] : List UInt8)) ()
        lastIndexRngSet (emptyServer.rngRecordsAfter lastIndexRngSet.nextStartFromUserEventId) =
      (lastIndexRngSet, ([] : List (TxOutPollingError Unit))) ∧
    lastIndexRngSet.highestProcessedBlockCount < emptyServer.highestProcessedBlockCount ∧
    DistinctOutputs lastIndexRngSet.rngs ∧
    ∀ fuel, poll (fun _ => (none : Option Unit)) (fun (_ _ : Unit) => ([] : List UInt8))
        (fun c => (.ok c : Except TxOutRecoveryError (List UInt8)))
        (emptyServer.request Unit) fuel lastIndexRngSet () = none := by
  refine ⟨rfl, by decide, distinctOutputs_singleton fun _ _ h => zerosPrf_injective [] [] h,
    fun fuel => ?_⟩
  rw [poll_of_ok _ _ _ (emptyServer.request Unit) rfl (by decide)]
  exact Option.map_eq_none_iff.2
    (pollLoop_of_last_index (fun c => (.ok c : Except TxOutRecoveryError (List UInt8))) rfl rfl
      fuel 2 _ rfl)

end Poll

end View
end Fog
