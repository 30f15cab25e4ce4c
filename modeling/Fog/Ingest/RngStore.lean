import Fog.Oram.OMap

/-!
# The ingest enclave's RNG store

{lit}`RngStore` of {lit}`fog/ingest/enclave/impl/src/rng_store.rs` keeps, for
every user the enclave has seen since the egress key was last rotated, the
counter of that user's RNG: an oblivious map from the shared secret (with its
first byte flipped, so that it is never the map's reserved all-zero key) to a
{lit}`u64`.  {lit}`next_rng_output` answers the PRF of the shared secret at the
stored counter (0 for a new user) and increments the counter.

Its documentation states a contract: once the map has overflowed, the store
must be cleared before the next call, or a user's counter may restart and
repeat a search key.  Two history fields record the contract: whether the store
has overflowed since it was created or last cleared, and whether
{lit}`next_rng_output` was ever called on a store in that state.  No operation
reads them.

The map is the parameter {lean}`Oram.OMapOps`; the results hold for every map
meeting its contract with the reserved key of 32 zero bytes.

Main results:

- Theorem {lit}`RngStore.nextRngOutput_spec`: without an overflow, the output
  is the PRF at the user's counter, that counter is incremented and every other
  user's is unchanged.
- Theorem {lit}`RngStore.counter_clear`: clearing resets every counter.
-/

namespace Fog
namespace Ingest

open Oram

/-- {lit}`KeySize` of the store: the 32 bytes of a shared secret. -/
def rngKeySize : Nat := 32

/-- The key a shared secret is stored under: its first byte flipped. -/
def flipFirstByte : List UInt8 → List UInt8
  | [] => []
  | b :: bs => ~~~b :: bs

/-- Distinct shared secrets are stored under distinct keys. -/
theorem flipFirstByte_injective : Function.Injective flipFirstByte := by
  intro x y h
  cases x with
  | nil => cases y with
    | nil => rfl
    | cons b bs => cases h
  | cons a as => cases y with
    | nil => cases h
    | cons b bs =>
        obtain ⟨hab, has⟩ := List.cons.inj h
        have hab' : a = b := by simpa using congrArg (fun x : UInt8 => ~~~x) hab
        rw [hab', has]

/-- The one shared secret whose flip is the reserved key: {lit}`0xff` and
zeros, which is not the encoding of a curve point. -/
theorem flipFirstByte_ne_zeroKey {secret : List UInt8}
    (h : secret ≠ 255 :: List.replicate (rngKeySize - 1) 0) :
    flipFirstByte secret ≠ List.replicate rngKeySize 0 := by
  cases secret with
  | nil => exact fun hnil => by cases hnil
  | cons b bs =>
      intro hflip
      obtain ⟨hb, hbs⟩ := List.cons.inj hflip
      have hb' : b = 255 := by
        have hnot := congrArg (fun x : UInt8 => ~~~x) hb
        simp only [UInt8.not_not] at hnot
        rw [hnot]
        decide
      exact h (by rw [hb', hbs]; rfl)

/-- {lit}`RngStore`, over the states {lit}`M` of its oblivious map, with its
two history fields. -/
structure RngStore (M : Type) where
  omap : M
  desiredCapacity : Nat
  /-- The map answered an overflow since the store was created or cleared. -/
  overflowed : Bool
  /-- {lit}`next_rng_output` was once called while {lean}`overflowed` held. -/
  usedAfterOverflow : Bool

/-- {lit}`GenericArray::<u8, U16>::default()`, the output before the map's
callback sets it. -/
def emptyRngOutput : List UInt8 := List.replicate 16 0

namespace RngStore

variable {M : Type} (ops : OMapOps (List UInt8) UInt64 M)

/-- {lit}`RngStore::new`. -/
def new (desiredCapacity : Nat) : RngStore M :=
  ⟨ops.create desiredCapacity, desiredCapacity, false, false⟩

/-- {lit}`capacity`: the real capacity of the map. -/
def capacity (s : RngStore M) : Nat :=
  ops.capacity s.omap

/-- {lit}`clear`: a new map of the desired capacity.  The record of a call
after an overflow is history and stays. -/
def clear (s : RngStore M) : RngStore M :=
  { new ops s.desiredCapacity with usedAfterOverflow := s.usedAfterOverflow }

/-- {lit}`next_rng_output`: whether the map overflowed, and the output the
callback set, the PRF of the shared secret at the counter the access gave it
(0 for a new user), which the callback increments by wrapping addition. -/
def nextRngOutput (prf : List UInt8 → UInt64 → List UInt8) (s : RngStore M)
    (sharedSecret : List UInt8) : Bool × List UInt8 × RngStore M :=
  let access := ops.accessAndInsert s.omap (flipFirstByte sharedSecret) 0 fun counter => counter + 1
  (access.1 == .overflow, (access.2.1.map (prf sharedSecret)).getD emptyRngOutput,
    { s with
      omap := access.2.2
      overflowed := s.overflowed || access.1 == .overflow
      usedAfterOverflow := s.usedAfterOverflow || s.overflowed })

/-- The counter of a shared secret: the stored one, 0 for a new user. -/
def counter (content : M → List UInt8 → Option UInt64) (s : RngStore M)
    (sharedSecret : List UInt8) : UInt64 :=
  (content s.omap (flipFirstByte sharedSecret)).getD 0

/-- A cleared store has not overflowed. -/
@[simp]
theorem overflowed_clear (s : RngStore M) : (s.clear ops).overflowed = false :=
  rfl

/-- Clearing keeps the record of a use after an overflow. -/
@[simp]
theorem usedAfterOverflow_clear (s : RngStore M) :
    (s.clear ops).usedAfterOverflow = s.usedAfterOverflow :=
  rfl

/-- A call records a use after an overflow exactly when the store had
overflowed. -/
@[simp]
theorem usedAfterOverflow_nextRngOutput (prf : List UInt8 → UInt64 → List UInt8) (s : RngStore M)
    (sharedSecret : List UInt8) :
    (s.nextRngOutput ops prf sharedSecret).2.2.usedAfterOverflow =
      (s.usedAfterOverflow || s.overflowed) :=
  rfl

variable {ops} {content : M → List UInt8 → Option UInt64}
  (hmap : ops.Lawful (List.replicate rngKeySize 0) content)
include hmap

/-- A new store has every counter at zero. -/
@[simp]
theorem counter_new (desiredCapacity : Nat) (sharedSecret : List UInt8) :
    (new ops desiredCapacity).counter content sharedSecret = 0 := by
  rw [counter, new, hmap.content_create]
  rfl

/-- A cleared store has every counter at zero. -/
@[simp]
theorem counter_clear (s : RngStore M) (sharedSecret : List UInt8) :
    (s.clear ops).counter content sharedSecret = 0 :=
  counter_new hmap s.desiredCapacity sharedSecret

/-- What one call does, for a shared secret whose key is not reserved: either
no overflow, the output is the PRF at the user's counter, that counter is
incremented and every other user's is unchanged; or an overflow. -/
theorem nextRngOutput_spec (prf : List UInt8 → UInt64 → List UInt8) (s : RngStore M)
    {sharedSecret : List UInt8} (hkey : flipFirstByte sharedSecret ≠ List.replicate rngKeySize 0) :
    let r := s.nextRngOutput ops prf sharedSecret
    r.2.2.desiredCapacity = s.desiredCapacity ∧
    ((r.1 = false ∧ r.2.1 = prf sharedSecret (s.counter content sharedSecret) ∧
        r.2.2.overflowed = s.overflowed ∧
        ∀ secret', r.2.2.counter content secret' =
          if secret' = sharedSecret then s.counter content sharedSecret + 1
          else s.counter content secret') ∨
      (r.1 = true ∧ r.2.2.overflowed = true)) := by
  intro r
  rcases hacc : ops.accessAndInsert s.omap (flipFirstByte sharedSecret) 0
    (fun counter => counter + 1) with ⟨code, given, m'⟩
  rcases hmap.accessAndInsert_cases hacc hkey with ⟨rfl, -⟩ | ⟨hcode, rfl, hcontent⟩
  · simp [r, nextRngOutput, hacc]
  · have hcode' : (code == .overflow) = false := by
      cases code <;> first | rfl | exact absurd rfl hcode
    have hr : r = (false, prf sharedSecret (s.counter content sharedSecret),
        { s with omap := m', usedAfterOverflow := s.usedAfterOverflow || s.overflowed }) := by
      simp only [r, nextRngOutput, hacc, hcode', Bool.or_false, Option.map_some, Option.getD_some]
      rfl
    rw [hr]
    refine ⟨rfl, .inl ⟨rfl, rfl, rfl, fun secret' => ?_⟩⟩
    rw [counter, counter, hcontent]
    by_cases hs : secret' = sharedSecret
    · subst hs
      rw [if_pos rfl, if_pos rfl]
      rfl
    · rw [if_neg (flipFirstByte_injective.ne hs), if_neg hs]
      rfl

end RngStore

end Ingest
end Fog
