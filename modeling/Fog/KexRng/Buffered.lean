import Mathlib.Data.List.Range

/-!
# The client's key-exchange RNG

{lit}`fog/kex_rng` derives a user's search keys: a secret agreed by key
exchange with an ingest enclave's egress key, and the outputs
{lit}`prf(secret, 0)`, {lit}`prf(secret, 1)`, … of a versioned PRF.
{lit}`BufferedKexRng` holds the secret, the counter of draws made and the
output at the counter, so that the next output can be peeked; its iterator
yields the buffered output and advances.

The PRF and the key exchange are parameters.  The counter is a {lean}`UInt64`
advanced by wrapping addition (an overflow would need {lit}`2^64` outputs).
The buffer is a field of the structure together with the equation that makes
it the output at the counter, so a peek is always the PRF at the counter.

Main results:

- Theorem {lit}`BufferedKexRng.takeOutputs_eq`: the next {lit}`n` outputs are
  the PRF at the {lit}`n` counters from the current one.
- Theorem {lit}`tryFromKexPubkey_eq_some`: a user who accepts a pubkey
  announced by an enclave starts at counter 0 with the secret the key exchange
  agrees on.
-/

namespace Fog
namespace KexRng

/-- {lit}`KexRngPubkey`: the public key's canonical bytes and the RNG version. -/
structure KexRngPubkey where
  publicKey : List UInt8
  version : Nat
deriving DecidableEq, Repr

/-- {lit}`KexRng20201124::VERSION_ID`, the one version of this revision. -/
def versionId : Nat := 0

variable {Secret Out : Type}

/-- {lit}`BufferedKexRng`: the secret, the counter, and the buffered output at
the counter. -/
structure BufferedKexRng (prf : Secret → UInt64 → Out) where
  secret : Secret
  counter : UInt64
  buffer : Out
  buffer_eq : buffer = prf secret counter

namespace BufferedKexRng

variable {prf : Secret → UInt64 → Out}

/-- {lit}`from_secret`: counter 0, buffering the first output. -/
def fromSecret (prf : Secret → UInt64 → Out) (secret : Secret) : BufferedKexRng prf :=
  ⟨secret, 0, prf secret 0, rfl⟩

/-- {lit}`peek`. -/
def peek (r : BufferedKexRng prf) : Out :=
  r.buffer

/-- {lit}`advance`: the next counter and its output. -/
def advance (r : BufferedKexRng prf) : BufferedKexRng prf :=
  ⟨r.secret, r.counter + 1, prf r.secret (r.counter + 1), rfl⟩

/-- {lit}`index`: the number of outputs drawn. -/
def index (r : BufferedKexRng prf) : UInt64 :=
  r.counter

/-- {lit}`take(n)` of the iterator on a clone: the next {lean}`n` outputs,
each the buffered one before advancing. -/
def takeOutputs : Nat → BufferedKexRng prf → List Out
  | 0, _ => []
  | n + 1, r => r.peek :: takeOutputs n r.advance

/-- The next output is the PRF at the current counter. -/
@[simp]
theorem peek_eq (r : BufferedKexRng prf) : r.peek = prf r.secret r.counter :=
  r.buffer_eq

/-- Advancing keeps the secret. -/
@[simp]
theorem secret_advance (r : BufferedKexRng prf) : r.advance.secret = r.secret :=
  rfl

/-- Advancing increments the counter, wrapping. -/
@[simp]
theorem counter_advance (r : BufferedKexRng prf) : r.advance.counter = r.counter + 1 :=
  rfl

/-- A fresh RNG holds its secret. -/
@[simp]
theorem secret_fromSecret (secret : Secret) : (fromSecret prf secret).secret = secret :=
  rfl

/-- A fresh RNG starts at counter 0. -/
@[simp]
theorem counter_fromSecret (secret : Secret) : (fromSecret prf secret).counter = 0 :=
  rfl

/-- The next {lean}`n` outputs are the PRF at the {lean}`n` counters from the
current one; the induction is on {lean}`n`, advancing the rng. -/
theorem takeOutputs_eq (n : Nat) (r : BufferedKexRng prf) :
    takeOutputs n r = (List.range n).map fun i => prf r.secret (r.counter + UInt64.ofNat i) := by
  induction n generalizing r with
  | zero => rfl
  | succ n ih =>
      rw [takeOutputs, ih, List.range_succ_eq_map, List.map_cons, List.map_map, peek_eq]
      congr 1
      · simp
      · apply List.map_congr_left
        intro i _
        simp only [Function.comp_apply, secret_advance, counter_advance]
        congr 1
        rw [Nat.succ_eq_add_one, UInt64.ofNat_add, UInt64.ofNat_one]
        ac_rfl

/-- The output {lean}`i` draws after the current one. -/
def outputAt (r : BufferedKexRng prf) (i : Nat) : Out :=
  prf r.secret (r.counter + UInt64.ofNat i)

/-- Any number of advances keeps the secret. -/
@[simp]
theorem secret_iterate_advance (n : Nat) (r : BufferedKexRng prf) :
    (advance^[n] r).secret = r.secret := by
  induction n generalizing r with
  | zero => rfl
  | succ n ih => rw [Function.iterate_succ_apply, ih, secret_advance]

/-- After n advances the counter has gone up by n, wrapping. -/
@[simp]
theorem counter_iterate_advance (n : Nat) (r : BufferedKexRng prf) :
    (advance^[n] r).counter = r.counter + UInt64.ofNat n := by
  induction n generalizing r with
  | zero => simp
  | succ n ih =>
      rw [Function.iterate_succ_apply, ih, counter_advance, UInt64.ofNat_add, UInt64.ofNat_one]
      ac_rfl

/-- The next output is the output at offset 0. -/
theorem peek_eq_outputAt (r : BufferedKexRng prf) : r.peek = r.outputAt 0 := by
  simp [outputAt]

/-- Drawing {lean}`j` outputs shifts every later output by {lean}`j`. -/
@[simp]
theorem outputAt_iterate_advance (j i : Nat) (r : BufferedKexRng prf) :
    (advance^[j] r).outputAt i = r.outputAt (j + i) := by
  simp only [outputAt, secret_iterate_advance, counter_iterate_advance, UInt64.ofNat_add]
  ac_rfl

/-- After an advance the outputs are shifted by one. -/
theorem outputAt_advance (i : Nat) (r : BufferedKexRng prf) :
    r.advance.outputAt i = r.outputAt (i + 1) := by
  have h := outputAt_iterate_advance 1 i r
  rw [Function.iterate_one] at h
  rw [h, Nat.add_comm]

/-- The first n outputs are those at offsets 0 to n - 1. -/
theorem takeOutputs_eq_map_outputAt (n : Nat) (r : BufferedKexRng prf) :
    takeOutputs n r = (List.range n).map r.outputAt :=
  takeOutputs_eq n r

/-- From a fresh rng the outputs are the PRF at 0, 1, 2, …. -/
theorem takeOutputs_fromSecret (n : Nat) (secret : Secret) :
    takeOutputs n (fromSecret prf secret) =
      (List.range n).map fun i => prf secret (UInt64.ofNat i) := by
  rw [takeOutputs_eq]
  simp

end BufferedKexRng

section Client

variable {Sk Pt : Type} (prf : List UInt8 → UInt64 → Out)
  (decompress : List UInt8 → Option Pt) (keyExchange : Sk → Pt → List UInt8)

/-- {lit}`VersionedKexRng::try_from_kex_pubkey`: refuse an unknown version or
a public key that does not decode, and otherwise start from the secret the key
exchange with our private key gives. -/
def tryFromKexPubkey (pubkey : KexRngPubkey) (ourPrivate : Sk) :
    Option (BufferedKexRng prf) :=
  if pubkey.version ≠ versionId then none
  else (decompress pubkey.publicKey).map fun p =>
    BufferedKexRng.fromSecret prf (keyExchange ourPrivate p)

/-- A pubkey of the current version whose key decodes is accepted, at counter
0 with the agreed secret. -/
theorem tryFromKexPubkey_eq_some {pubkey : KexRngPubkey} {p : Pt} (hversion : pubkey.version = versionId)
    (hdecode : decompress pubkey.publicKey = some p) (ourPrivate : Sk) :
    tryFromKexPubkey prf decompress keyExchange pubkey ourPrivate =
      some (BufferedKexRng.fromSecret prf (keyExchange ourPrivate p)) := by
  unfold tryFromKexPubkey
  rw [if_neg (not_not.2 hversion), hdecode, Option.map_some]

end Client

end KexRng
end Fog
