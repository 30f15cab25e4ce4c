import Mathlib.Data.List.AList

/-!
# The oblivious map's contract

The view enclave keeps its encrypted records, and the ingest enclave its
per-user RNG counters, in an oblivious hash map of the external
{lit}`mc-oblivious` crate: a cuckoo hash table over an ORAM.  The map is not
part of this repository, so it enters the model as a parameter: the operations
of its {lit}`ObliviousHashMap` trait over some type of states,
{lean}`Oram.OMapOps`, and the contract the stores rely on,
{lean}`Oram.OMapOps.Lawful`, stated over the content a state stores.

- A new map stores nothing.
- The all-zero key is reserved: every operation on it answers
  {lit}`OMAP_INVALID_KEY` and leaves the map as it was.  The repository records
  this where it uses the map (the RNG store flips a byte of its keys so as never
  to pass it, and the view server's tests avoid it).
- A read copies the stored value into the caller's buffer when the key is
  present and leaves the buffer as it was otherwise.
- A write or an access at a present key finds it and stores the new value.
- Inserting a new key stores it, or answers {lit}`OMAP_OVERFLOW`.  A cuckoo
  table can overflow well before it holds its capacity (the ingest enclave's
  documentation expects about 70% of it to be usable), so the contract allows
  an overflow at any insertion of a new key.  After an overflow the map stores
  only entries it stored before and the one being inserted: entries may be
  lost, which is why the RNG store must be cleared before it is used again.

The obliviousness of the map is not modelled.  A bounded association list that
overflows exactly when it is full, {lean}`Oram.boundedOMap`, meets the
contract; it serves as the map of the examples.

Main results:

- Theorems {lit}`OMapOps.Lawful.vartimeWrite_cases` and
  {lit}`OMapOps.Lawful.accessAndInsert_cases`: what a write and an
  access-and-insert answer, and the content they leave.
- Theorem {lit}`lawful_boundedOMap`: the bounded association list meets the
  contract.
-/

namespace Fog
namespace Oram

/-- The result codes {lit}`OMAP_FOUND`, {lit}`OMAP_NOT_FOUND`,
{lit}`OMAP_OVERFLOW` and {lit}`OMAP_INVALID_KEY`. -/
inductive OMapResultCode
  | found
  | notFound
  | overflow
  | invalidKey
deriving DecidableEq, Repr

/-- The operations of an oblivious hash map with keys {lit}`K` and values
{lit}`V`, over its states {lit}`M`: the creator's {lit}`create` and the
{lit}`ObliviousHashMap` trait.  The stash size and the random number generators
the operations take are left out. -/
structure OMapOps (K V M : Type) where
  /-- {lit}`OMapCreator::create(desired_capacity, ..)`. -/
  create : Nat → M
  /-- {lit}`len`: the number of stored entries. -/
  len : M → Nat
  /-- {lit}`capacity`: the real capacity of the table. -/
  capacity : M → Nat
  /-- {lit}`read(key, output)`: the result code and the caller's buffer after. -/
  read : M → K → V → OMapResultCode × V
  /-- {lit}`vartime_write(key, value, allow_overwrite)`: the result code and the
  map after. -/
  vartimeWrite : M → K → V → Bool → OMapResultCode × M
  /-- {lit}`access_and_insert(key, default, .., callback)`: the result code, the
  value the callback was called with, if it was, and the map after; the callback
  returns the value to store. -/
  accessAndInsert : M → K → V → (V → V) → OMapResultCode × Option V × M

namespace OMapOps

variable {K V M : Type}

/-- The content after a failed insertion of {lit}`value` at {lit}`key`: every
entry stored is one stored before or the one being inserted. -/
def KeptOrInserted (content : M → K → Option V) (m m' : M) (key : K) (value : V) : Prop :=
  ∀ k v, content m' k = some v → content m k = some v ∨ (k = key ∧ v = value)

/-- Entries kept through an overflow keep a property every entry before had and
the entry being inserted has. -/
theorem KeptOrInserted.keep {content : M → K → Option V} {m m' : M} {key : K} {value : V}
    {P : K → V → Prop} (hkept : KeptOrInserted content m m' key value)
    (hold : ∀ k v, content m k = some v → P k v) (hnew : P key value) :
    ∀ k v, content m' k = some v → P k v := by
  intro k v hk
  rcases hkept k v hk with hk | ⟨rfl, rfl⟩
  · exact hold k v hk
  · exact hnew

variable [DecidableEq K]

/-- The contract of an oblivious hash map, over the content
{lit}`content m k` a state {lit}`m` stores at {lit}`k` and the reserved key
{lit}`zeroKey`. -/
structure Lawful (ops : OMapOps K V M) (zeroKey : K) (content : M → K → Option V) : Prop where
  content_create : ∀ capacity k, content (ops.create capacity) k = none
  read_eq : ∀ m key buf, ops.read m key buf =
    if key = zeroKey then (.invalidKey, buf)
    else (content m key).elim (.notFound, buf) fun v => (.found, v)
  vartimeWrite_zeroKey : ∀ m value allowOverwrite,
    ops.vartimeWrite m zeroKey value allowOverwrite = (.invalidKey, m)
  vartimeWrite_found : ∀ {m m' key value allowOverwrite code v},
    ops.vartimeWrite m key value allowOverwrite = (code, m') → key ≠ zeroKey →
      content m key = some v →
      code = .found ∧ ∀ k, content m' k =
        if allowOverwrite = true ∧ k = key then some value else content m k
  vartimeWrite_new : ∀ {m m' key value allowOverwrite code},
    ops.vartimeWrite m key value allowOverwrite = (code, m') → key ≠ zeroKey →
      content m key = none →
      (code = .notFound ∧ ∀ k, content m' k = if k = key then some value else content m k) ∨
        (code = .overflow ∧ KeptOrInserted content m m' key value)
  accessAndInsert_zeroKey : ∀ {m m' dflt callback code given},
    ops.accessAndInsert m zeroKey dflt callback = (code, given, m') →
      code = .invalidKey ∧ m' = m
  accessAndInsert_found : ∀ {m m' key dflt callback code given v},
    ops.accessAndInsert m key dflt callback = (code, given, m') → key ≠ zeroKey →
      content m key = some v →
      code = .found ∧ given = some v ∧
        ∀ k, content m' k = if k = key then some (callback v) else content m k
  accessAndInsert_new : ∀ {m m' key dflt callback code given},
    ops.accessAndInsert m key dflt callback = (code, given, m') → key ≠ zeroKey →
      content m key = none →
      (code = .notFound ∧ given = some dflt ∧
          ∀ k, content m' k = if k = key then some (callback dflt) else content m k) ∨
        (code = .overflow ∧ KeptOrInserted content m m' key (callback dflt))

namespace Lawful

variable {ops : OMapOps K V M} {zeroKey : K} {content : M → K → Option V}
  (hmap : ops.Lawful zeroKey content)
include hmap

/-- A write that overwrites: the reserved key fails and leaves the map, an
overflow keeps or inserts, and otherwise the value is stored at the key. -/
theorem vartimeWrite_cases {m m' : M} {key : K} {value : V} {code : OMapResultCode}
    (h : ops.vartimeWrite m key value true = (code, m')) :
    (key = zeroKey ∧ code = .invalidKey ∧ m' = m) ∨
    (key ≠ zeroKey ∧ code = .overflow ∧ KeptOrInserted content m m' key value) ∨
    (key ≠ zeroKey ∧ (code = .found ∨ code = .notFound) ∧
      ∀ k, content m' k = if k = key then some value else content m k) := by
  by_cases hzero : key = zeroKey
  · subst hzero
    rw [hmap.vartimeWrite_zeroKey] at h
    cases h
    exact .inl ⟨rfl, rfl, rfl⟩
  cases hkey : content m key with
  | some v =>
      obtain ⟨rfl, hcontent⟩ := hmap.vartimeWrite_found h hzero hkey
      refine .inr (.inr ⟨hzero, .inl rfl, fun k => ?_⟩)
      rw [hcontent k]
      simp only [true_and]
  | none =>
      rcases hmap.vartimeWrite_new h hzero hkey with ⟨rfl, hcontent⟩ | ⟨rfl, hkept⟩
      · exact .inr (.inr ⟨hzero, .inr rfl, hcontent⟩)
      · exact .inr (.inl ⟨hzero, rfl, hkept⟩)

/-- An access-and-insert at a key other than the reserved one: an overflow keeps
or inserts; otherwise the callback is given the stored value, or the default
for a new key, and its result is stored at the key. -/
theorem accessAndInsert_cases {m m' : M} {key : K} {dflt : V} {callback : V → V}
    {code : OMapResultCode} {given : Option V}
    (h : ops.accessAndInsert m key dflt callback = (code, given, m')) (hkey : key ≠ zeroKey) :
    (code = .overflow ∧ KeptOrInserted content m m' key (callback dflt)) ∨
    (code ≠ .overflow ∧ given = some ((content m key).getD dflt) ∧
      ∀ k, content m' k =
        if k = key then some (callback ((content m key).getD dflt)) else content m k) := by
  cases hv : content m key with
  | some v =>
      obtain ⟨rfl, rfl, hcontent⟩ := hmap.accessAndInsert_found h hkey hv
      exact .inr ⟨nofun, rfl, hcontent⟩
  | none =>
      rcases hmap.accessAndInsert_new h hkey hv with ⟨rfl, rfl, hcontent⟩ | hover
      · exact .inr ⟨nofun, rfl, hcontent⟩
      · exact .inl hover

end Lawful

end OMapOps

/-! ## A bounded association list -/

/-- A map of at most {lit}`capacity` entries. -/
structure BoundedMap (K V : Type) [DecidableEq K] where
  capacity : Nat
  content : AList fun _ : K => V
  size_le : content.keys.length ≤ capacity

namespace BoundedMap

variable {K V : Type} [DecidableEq K]

/-- An empty map. -/
def create (capacity : Nat) : BoundedMap K V :=
  ⟨capacity, ∅, Nat.zero_le _⟩

/-- The number of stored entries. -/
def len (m : BoundedMap K V) : Nat :=
  m.content.keys.length

/-- An insertion at a present key, or with room left, stays within the capacity.
-/
theorem length_keys_insert_le {m : BoundedMap K V} {key : K} (v : V)
    (hroom : key ∈ m.content ∨ m.len < m.capacity) :
    (m.content.insert key v).keys.length ≤ m.capacity := by
  rw [AList.keys_insert, List.length_cons]
  rcases hroom with hmem | hlt
  · rw [List.length_erase_of_mem (AList.mem_keys.1 hmem)]
    have hpos : 0 < m.content.keys.length := List.length_pos_of_mem (AList.mem_keys.1 hmem)
    have := m.size_le
    omega
  · have hle : (m.content.keys.erase key).length ≤ m.content.keys.length := List.length_erase_le
    unfold len at hlt
    omega

/-- Store a value at a key which is present or for which there is room. -/
def insertAt (m : BoundedMap K V) (key : K) (v : V)
    (hroom : key ∈ m.content ∨ m.len < m.capacity) : BoundedMap K V :=
  ⟨m.capacity, m.content.insert key v, length_keys_insert_le v hroom⟩

/-- After an insertion the key reads the value inserted, and every other key
reads as before. -/
theorem lookup_insertAt (m : BoundedMap K V) (key : K) (v : V) (hroom) (key' : K) :
    (m.insertAt key v hroom).content.lookup key' =
      if key' = key then some v else m.content.lookup key' := by
  unfold insertAt
  by_cases h : key' = key
  · rw [if_pos h, h]
    exact AList.lookup_insert _
  · rw [if_neg h]
    exact AList.lookup_insert_ne h

variable (zeroKey : K)

/-- A read: the reserved key fails, and a present key copies its value. -/
def read (m : BoundedMap K V) (key : K) (buf : V) : OMapResultCode × V :=
  if key = zeroKey then (.invalidKey, buf)
  else
    match m.content.lookup key with
    | some v => (.found, v)
    | none => (.notFound, buf)

/-- A write: the reserved key fails, a present key is found (and overwritten if
allowed), and a new key is stored when there is room and overflows
otherwise. -/
def vartimeWrite (m : BoundedMap K V) (key : K) (value : V) (allowOverwrite : Bool) :
    OMapResultCode × BoundedMap K V :=
  if key = zeroKey then (.invalidKey, m)
  else if hmem : key ∈ m.content then
    (.found, if allowOverwrite then m.insertAt key value (.inl hmem) else m)
  else if hlt : m.len < m.capacity then (.notFound, m.insertAt key value (.inr hlt))
  else (.overflow, m)

/-- An access-and-insert: the reserved key fails without calling the callback;
otherwise the callback gets the stored value, or the default for a new key, and
its result is stored when the key is present or there is room. -/
def accessAndInsert (m : BoundedMap K V) (key : K) (dflt : V) (callback : V → V) :
    OMapResultCode × Option V × BoundedMap K V :=
  if key = zeroKey then (.invalidKey, none, m)
  else if hmem : key ∈ m.content then
    let v := (m.content.lookup key).getD dflt
    (.found, some v, m.insertAt key (callback v) (.inl hmem))
  else if hlt : m.len < m.capacity then
    (.notFound, some dflt, m.insertAt key (callback dflt) (.inr hlt))
  else (.overflow, some dflt, m)

end BoundedMap

/-- The bounded association list as an oblivious map with the reserved key
{lit}`zeroKey`. -/
def boundedOMap {K V : Type} [DecidableEq K] (zeroKey : K) : OMapOps K V (BoundedMap K V) where
  create := BoundedMap.create
  len := BoundedMap.len
  capacity := BoundedMap.capacity
  read := BoundedMap.read zeroKey
  vartimeWrite := BoundedMap.vartimeWrite zeroKey
  accessAndInsert := BoundedMap.accessAndInsert zeroKey

/-- The bounded association list meets the contract, its content being the
association list. -/
theorem lawful_boundedOMap {K V : Type} [DecidableEq K] (zeroKey : K) :
    (boundedOMap zeroKey : OMapOps K V _).Lawful zeroKey fun m k => m.content.lookup k where
  content_create _ _ := rfl
  read_eq m key buf := by
    show BoundedMap.read zeroKey m key buf = _
    unfold BoundedMap.read
    split
    · rfl
    · cases m.content.lookup key <;> rfl
  vartimeWrite_zeroKey m value allowOverwrite := if_pos rfl
  vartimeWrite_found {m m' key value allowOverwrite code v} h hzero hv := by
    have hmem : key ∈ m.content := AList.lookup_isSome.1 (by rw [hv]; rfl)
    change BoundedMap.vartimeWrite zeroKey m key value allowOverwrite = _ at h
    rw [BoundedMap.vartimeWrite, if_neg hzero, dif_pos hmem] at h
    cases h
    refine ⟨rfl, fun k => ?_⟩
    cases allowOverwrite with
    | true => simp only [if_true, BoundedMap.lookup_insertAt, true_and]
    | false => simp
  vartimeWrite_new {m m' key value allowOverwrite code} h hzero hnone := by
    have hmem : key ∉ m.content := AList.lookup_eq_none.1 hnone
    change BoundedMap.vartimeWrite zeroKey m key value allowOverwrite = _ at h
    rw [BoundedMap.vartimeWrite, if_neg hzero, dif_neg hmem] at h
    by_cases hlt : m.len < m.capacity
    · rw [dif_pos hlt] at h
      cases h
      exact .inl ⟨rfl, BoundedMap.lookup_insertAt m key value _⟩
    · rw [dif_neg hlt] at h
      cases h
      exact .inr ⟨rfl, fun k v hk => .inl hk⟩
  accessAndInsert_zeroKey {m m' dflt callback code given} h := by
    change BoundedMap.accessAndInsert zeroKey m zeroKey dflt callback = _ at h
    rw [BoundedMap.accessAndInsert, if_pos rfl] at h
    cases h
    exact ⟨rfl, rfl⟩
  accessAndInsert_found {m m' key dflt callback code given v} h hzero hv := by
    have hmem : key ∈ m.content := AList.lookup_isSome.1 (by rw [hv]; rfl)
    change BoundedMap.accessAndInsert zeroKey m key dflt callback = _ at h
    rw [BoundedMap.accessAndInsert, if_neg hzero, dif_pos hmem] at h
    cases h
    rw [hv, Option.getD_some]
    exact ⟨rfl, rfl, BoundedMap.lookup_insertAt m key _ _⟩
  accessAndInsert_new {m m' key dflt callback code given} h hzero hnone := by
    have hmem : key ∉ m.content := AList.lookup_eq_none.1 hnone
    change BoundedMap.accessAndInsert zeroKey m key dflt callback = _ at h
    rw [BoundedMap.accessAndInsert, if_neg hzero, dif_neg hmem] at h
    by_cases hlt : m.len < m.capacity
    · rw [dif_pos hlt] at h
      cases h
      exact .inl ⟨rfl, rfl, BoundedMap.lookup_insertAt m key _ _⟩
    · rw [dif_neg hlt] at h
      cases h
      exact .inr ⟨rfl, fun k v hk => .inl hk⟩

end Oram
end Fog
