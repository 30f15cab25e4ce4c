import Fog.Lib.SortedSet

/-!
# The ingest controller's state

{lit}`IngestControllerState` from {lit}`fog/ingest/server/src/controller_state.rs`:
the mode of the server, the next block it scans, the window added to it for
the expiry of published reports, its ingest invocation id, and its set of
peers.  The setters that the source guards (the next block index may only be
set while idle, the expiry window only grow while active, the index only be
incremented while active) return an error or fail, as the source does.

The status summary that servers exchange and write to their state files,
{lit}`IngestSummary`, is modelled by what the controller reads from it.  Its
ingress key is the result of {lit}`CompressedRistrettoPublic::try_from` on the
key bytes ({lit}`none` when they do not form a key), and each peer string is
the result of {lit}`IngestPeerUri::from_str` ({lit}`none` when it does not
parse); the egress key and RNG version it also carries are not read by any
modelled operation.

Peer URIs are a linearly ordered type, as in the {lit}`BTreeSet` the source
keeps them in, and the set is a {lit}`SortedSet`.

Main results:

- Theorem {lit}`IngestControllerState.setNextBlockIndex_eq_ok_iff`: the next
  block index can be set exactly while idle.
- Theorem {lit}`IngestControllerState.incrementNextBlockIndex_eq_some_iff`:
  the index can be incremented exactly while active.
- Theorem {lit}`IngestController.getSortedPeers_getIngestSummaryInner`: the
  peers of a summary the controller writes read back as its peer set.
-/

namespace Fog
namespace Ingest

/-- The two modes of an ingest server, {lit}`IngestMode`, also reported in
summaries as the protobuf {lit}`IngestControllerMode`. -/
inductive IngestMode
  | idle
  | active
deriving DecidableEq, Repr

/-- {lit}`StateChangeError`. -/
inductive StateChangeError
  | cannotSetNextBlockIndex (mode : IngestMode)
  | cannotReducePubkeyExpiry (mode : IngestMode) (oldVal proposedVal : Nat)
deriving DecidableEq, Repr

/-- The status of an ingest server as another server or its state file reads
it. -/
structure IngestSummary (K U : Type) where
  mode : IngestMode
  nextBlockIndex : Nat
  pubkeyExpiryWindow : Nat
  /-- The invocation id, zero when there is none (a protobuf default). -/
  ingestInvocationId : Nat
  /-- The ingress public key, if its bytes form one. -/
  ingressPubkey : Option K
  /-- Each peer URI, if its text parses. -/
  peers : List (Option U)
deriving DecidableEq, Repr

namespace IngestSummary

variable {K U : Type} [LinearOrder U]

/-- {lit}`IngestSummary::get_sorted_peers`: the set of peers, or a parse error
if one of them does not parse. -/
def getSortedPeers (s : IngestSummary K U) : Option (SortedSet U) :=
  (s.peers.mapM id).map SortedSet.ofList

end IngestSummary

/-- {lit}`IngestControllerState`. -/
structure IngestControllerState (U : Type) [LinearOrder U] where
  mode : IngestMode
  nextBlockIndex : Nat
  pubkeyExpiryWindow : Nat
  ingestInvocationId : Option Nat
  peers : SortedSet U
deriving DecidableEq

namespace IngestControllerState

variable {U : Type} [LinearOrder U]

/-- {lit}`IngestControllerState::new`: idle, at block zero, with the configured
window and peers. -/
def new (pubkeyExpiryWindow : Nat) (peers : SortedSet U) : IngestControllerState U :=
  { mode := .idle, nextBlockIndex := 0, pubkeyExpiryWindow, ingestInvocationId := none, peers }

def isIdle (s : IngestControllerState U) : Bool :=
  s.mode = .idle

def isActive (s : IngestControllerState U) : Bool :=
  s.mode = .active

/-- {lit}`set_active`, allowed from any mode. -/
def setActive (s : IngestControllerState U) : IngestControllerState U :=
  { s with mode := .active }

/-- {lit}`set_idle`, allowed from any mode. -/
def setIdle (s : IngestControllerState U) : IngestControllerState U :=
  { s with mode := .idle }

/-- {lit}`increment_next_block_index`; its assertion that the server is not idle
fails as {lit}`none`. -/
def incrementNextBlockIndex (s : IngestControllerState U) : Option (IngestControllerState U) :=
  if s.isIdle then none else some { s with nextBlockIndex := s.nextBlockIndex + 1 }

/-- {lit}`set_next_block_index`, only allowed while idle. -/
def setNextBlockIndex (s : IngestControllerState U) (newVal : Nat) :
    Except StateChangeError (IngestControllerState U) :=
  if s.mode = .idle then .ok { s with nextBlockIndex := newVal }
  else .error (.cannotSetNextBlockIndex s.mode)

/-- {lit}`set_pubkey_expiry_window`: any value while idle, otherwise only an
increase. -/
def setPubkeyExpiryWindow (s : IngestControllerState U) (val : Nat) :
    Except StateChangeError (IngestControllerState U) :=
  if s.mode = .idle then .ok { s with pubkeyExpiryWindow := val }
  else if s.pubkeyExpiryWindow > val then
    .error (.cannotReducePubkeyExpiry s.mode s.pubkeyExpiryWindow val)
  else .ok { s with pubkeyExpiryWindow := val }

def setIngestInvocationId (s : IngestControllerState U) (val : Option Nat) :
    IngestControllerState U :=
  { s with ingestInvocationId := val }

/-- {lit}`set_peers`.  The source assigns only when the sets differ, which
leaves the same set either way. -/
def setPeers (s : IngestControllerState U) (newPeers : SortedSet U) : IngestControllerState U :=
  { s with peers := newPeers }

/-- {lit}`get_ingest_summary`: the state's part of a summary; the controller
adds the keys. -/
def getIngestSummary {K : Type} (s : IngestControllerState U) : IngestSummary K U :=
  { mode := s.mode
    nextBlockIndex := s.nextBlockIndex
    pubkeyExpiryWindow := s.pubkeyExpiryWindow
    ingestInvocationId := s.ingestInvocationId.getD 0
    ingressPubkey := none
    peers := s.peers.toList.map some }

/-! ## What each setter changes -/

@[simp] theorem setActive_mode (s : IngestControllerState U) : s.setActive.mode = .active := rfl
@[simp] theorem setIdle_mode (s : IngestControllerState U) : s.setIdle.mode = .idle := rfl
@[simp] theorem setPeers_mode (s : IngestControllerState U) (p : SortedSet U) :
    (s.setPeers p).mode = s.mode := rfl
@[simp] theorem setPeers_peers (s : IngestControllerState U) (p : SortedSet U) :
    (s.setPeers p).peers = p := rfl
@[simp] theorem setActive_peers (s : IngestControllerState U) : s.setActive.peers = s.peers := rfl
@[simp] theorem setIdle_peers (s : IngestControllerState U) : s.setIdle.peers = s.peers := rfl
@[simp] theorem setIngestInvocationId_mode (s : IngestControllerState U) (v : Option Nat) :
    (s.setIngestInvocationId v).mode = s.mode := rfl

/-- {lit}`is_idle` holds exactly in idle mode. -/
@[simp]
theorem isIdle_iff (s : IngestControllerState U) : s.isIdle = true ↔ s.mode = .idle := by
  simp [isIdle]

/-- {lit}`is_active` holds exactly in active mode. -/
@[simp]
theorem isActive_iff (s : IngestControllerState U) : s.isActive = true ↔ s.mode = .active := by
  simp [isActive]

/-- The next block index can be set exactly while idle, and setting it changes
nothing else. -/
theorem setNextBlockIndex_eq_ok_iff {s s' : IngestControllerState U} {v : Nat} :
    s.setNextBlockIndex v = .ok s' ↔ s.mode = .idle ∧ s' = { s with nextBlockIndex := v } := by
  unfold setNextBlockIndex
  split
  · rename_i hidle
    simp only [Except.ok.injEq, hidle, true_and]
    exact eq_comm
  · rename_i hidle
    simp [hidle]

/-- Setting the window while idle always succeeds. -/
theorem setPubkeyExpiryWindow_of_idle {s : IngestControllerState U} (h : s.mode = .idle)
    (v : Nat) : s.setPubkeyExpiryWindow v = .ok { s with pubkeyExpiryWindow := v } := by
  simp [setPubkeyExpiryWindow, h]

/-- Setting the window keeps the mode, the index and the peers. -/
theorem setPubkeyExpiryWindow_eq_ok {s s' : IngestControllerState U} {v : Nat}
    (h : s.setPubkeyExpiryWindow v = .ok s') :
    s' = { s with pubkeyExpiryWindow := v } := by
  unfold setPubkeyExpiryWindow at h
  split at h
  · exact (Except.ok.inj h).symm
  · split at h
    · cases h
    · exact (Except.ok.inj h).symm

/-- The index can be incremented exactly while active. -/
theorem incrementNextBlockIndex_eq_some_iff {s s' : IngestControllerState U} :
    s.incrementNextBlockIndex = some s' ↔
      s.mode = .active ∧ s' = { s with nextBlockIndex := s.nextBlockIndex + 1 } := by
  unfold incrementNextBlockIndex
  cases hm : s.mode <;> simp [isIdle, hm, eq_comm]

end IngestControllerState

/-- What one ingest server consists of, as far as the modelled operations read
it: its own node id from the configuration, its state, and the ingress public
key its enclave holds. -/
structure IngestController (K U R : Type) [LinearOrder U] where
  localNodeId : R
  state : IngestControllerState U
  ingressPubkey : K
deriving DecidableEq

namespace IngestController

variable {K U R : Type} [LinearOrder U]

/-- {lit}`get_ingest_summary_inner`: the state's summary with the enclave's
ingress key. -/
def getIngestSummaryInner (self : IngestController K U R) : IngestSummary K U :=
  { (self.state.getIngestSummary : IngestSummary K U) with ingressPubkey := some self.ingressPubkey }

/-- Peers written as present all read back. -/
theorem mapM_id_map_some {α : Type} (l : List α) : (l.map some).mapM id = some l := by
  induction l with
  | nil => rfl
  | cons a l ih => simp [List.mapM_cons, ih]

/-- The peers of a summary the controller writes read back as its peer set. -/
theorem getSortedPeers_getIngestSummaryInner (self : IngestController K U R) :
    self.getIngestSummaryInner.getSortedPeers = some self.state.peers := by
  simp only [getIngestSummaryInner, IngestControllerState.getIngestSummary,
    IngestSummary.getSortedPeers, mapM_id_map_some, Option.map_some, SortedSet.ofList_toList]

end IngestController

end Ingest
end Fog
