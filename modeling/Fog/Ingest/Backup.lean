import Fog.Ingest.ControllerState
import Fog.Lib.Except

/-!
# Backups of the ingress key among peers

Before an ingest server becomes active it must know that every other server of
its cluster is an idle backup holding its ingress private key and its peer
list, so that the key survives the active server.  The check on one peer is
{lit}`IngestController::confirm_backup` in
{lit}`fog/ingest/server/src/controller.rs`; {lit}`activate` runs it on every
peer with {lit}`update_if_wrong = true`, {lit}`restore_state_from_summary` with
{lit}`update_if_wrong = false`, and {lit}`peer_checkup` periodically while
active.

A peer is another server, so its answers are not under the controller's
control: a peer connection is modelled by the answers it gives to the three
calls the controller makes ({lit}`get_status`, {lit}`set_ingress_private_key`,
{lit}`set_peers`), and every result below holds for all answers.  The
predicate {lit}`ConfirmedBackup` states what the controller must have seen of a
peer for it to count as a correct backup.

Main results:

- Theorem {lit}`confirmBackup_true_eq_ok`: with updates enabled, a successful
  check has seen a confirmed backup.
- Theorem {lit}`confirmBackup_false_eq_ok_iff`: without updates, the check
  succeeds for every idle peer whose key and peer list merely parse, whatever
  they are.
- Theorem {lit}`activatePeers_confirmed`: the peer phase of {lit}`activate`
  succeeds only after confirming every other peer.
- Theorem {lit}`restoreStateFromSummary_activates_of_idle_peers`: restoring an
  active state file makes the server active as soon as every stored peer
  reports itself idle, whether or not it holds the key and the peer list.
-/

namespace Fog
namespace Ingest

/-- Peer URIs name the node they point to, {lit}`ConnectionUri::responder_id`;
{lit}`none` when the host and port do not form a responder id. -/
class ConnectionUri (U : Type) (R : outParam Type) where
  responderId : U → Option R

/-- The errors of a peer connection, {lit}`connection_error.rs`; the payloads of
the gRPC, attestation and enclave errors are not modelled. -/
inductive ConnectionError (K : Type)
  | attestation
  | channelSend
  | grpc
  | retryInternal
  | serialization
  | enclave
  | unexpectedKeyInEnclave (key : K)
deriving DecidableEq, Repr

/-- {lit}`PeerBackupError`. -/
inductive PeerBackupError (K U : Type)
  | anotherActivePeer (uri : U)
  | failedRemoteKeyBackup (uri : U)
  | failedRemoteSetPeers (uri : U)
  | connection (err : ConnectionError K)
  | peerSentBadURI
  | conversion
  | creatingNewIngressKey
deriving DecidableEq, Repr

/-- {lit}`SetPeersError`; the map of peers carried by the second variant is not
modelled. -/
inductive SetPeersError (R : Type)
  | responderId
  | missingOurResponderId (localNodeId : R)
deriving DecidableEq, Repr

/-- The variants of {lit}`RestoreStateError` that
{lit}`restore_state_from_summary` produces. -/
inductive RestoreStateError (K U R : Type)
  | reportCache
  | backup (err : PeerBackupError K U)
  | ingressKeyMismatch (ours theirs : K)
  | invalidPeerUri
  | setPeers (err : SetPeersError R)
  | serverNotIdle
  | conversion
deriving DecidableEq, Repr

variable {K U R : Type} [DecidableEq K] [LinearOrder U]

/-- What a peer answers to the calls a controller makes on it. -/
structure PeerAnswers (K U : Type) [LinearOrder U] where
  getStatus : Except (ConnectionError K) (IngestSummary K U)
  /-- The status returned after being sent the given ingress key. -/
  setIngressPrivateKey : K → Except (ConnectionError K) (IngestSummary K U)
  /-- The status returned after being sent the given peer set. -/
  setPeers : SortedSet U → Except (ConnectionError K) (IngestSummary K U)

/-- {lit}`PeerConnection`: a peer URI and the answers of the server behind it. -/
structure PeerConnection (K U : Type) [LinearOrder U] where
  uri : U
  answers : PeerAnswers K U

/-- The answers of every peer during one operation. -/
abbrev Network (K U : Type) [LinearOrder U] := U → PeerAnswers K U

/-- {lit}`PeerConnection::new`. -/
def PeerConnection.new (net : Network K U) (uri : U) : PeerConnection K U :=
  ⟨uri, net uri⟩

/-- What the outside world answers during one operation: the peers, and whether
{lit}`update_enclave_report_cache` succeeds. -/
structure Environment (K U : Type) [LinearOrder U] where
  net : Network K U
  reportCacheUpdates : Bool

/-! ## The check on one peer -/

/-- The summary {lit}`confirm_backup` checks: the cached one, otherwise the
peer's status. -/
def fetchSummary (conn : PeerConnection K U) :
    Option (IngestSummary K U) → Except (PeerBackupError K U) (IngestSummary K U)
  | some summary => pure summary
  | none => conn.answers.getStatus.mapError .connection

/-- The ingress key block of {lit}`confirm_backup`. -/
def confirmIngressKey (conn : PeerConnection K U) (summary : IngestSummary K U)
    (ourPubkey : K) (updateIfWrong : Bool) : Except (PeerBackupError K U) Unit := do
  let peerPubkey ← summary.ingressPubkey.okOr .conversion
  if peerPubkey ≠ ourPubkey then
    if updateIfWrong then
      match conn.answers.setIngressPrivateKey ourPubkey with
      | .ok summary =>
          let peerPubkey ← summary.ingressPubkey.okOr .conversion
          if peerPubkey ≠ ourPubkey then
            throw (.failedRemoteKeyBackup conn.uri)
      | .error err => throw (.connection err)

/-- The peer list block of {lit}`confirm_backup`. -/
def confirmPeerList (conn : PeerConnection K U) (summary : IngestSummary K U)
    (ourPeers : SortedSet U) (updateIfWrong : Bool) : Except (PeerBackupError K U) Unit := do
  let sortedRemotePeers ← summary.getSortedPeers.okOr .peerSentBadURI
  if ourPeers ≠ sortedRemotePeers then
    if updateIfWrong then
      match conn.answers.setPeers ourPeers with
      | .ok newSummary =>
          let newSortedRemotePeers ← newSummary.getSortedPeers.okOr .peerSentBadURI
          if newSortedRemotePeers ≠ ourPeers then
            throw (.failedRemoteSetPeers conn.uri)
      | .error err => throw (.connection err)

/-- {lit}`IngestController::confirm_backup`.  The key and the peer set default
to the enclave's key and the state's peers; {lit}`log_if_wrong` only decides
what is logged. -/
def IngestController.confirmBackup (self : IngestController K U R) (conn : PeerConnection K U)
    (cachedSummary : Option (IngestSummary K U)) (cachedOurPubkey : Option K)
    (cachedOurPeers : Option (SortedSet U)) (updateIfWrong : Bool) :
    Except (PeerBackupError K U) Unit := do
  let summary ← fetchSummary conn cachedSummary
  match summary.mode with
  | .active => throw (.anotherActivePeer conn.uri)
  | .idle => pure ()
  let ourPubkey := cachedOurPubkey.getD self.ingressPubkey
  let ourPeers := cachedOurPeers.getD self.state.peers
  confirmIngressKey conn summary ourPubkey updateIfWrong
  confirmPeerList conn summary ourPeers updateIfWrong

/-- What a controller must have seen of a peer for it to count as a correct
backup of a key and a peer set: the peer reported itself idle, and it holds
the key and the peer set, either in the status it reported or in the status
it returned after they were sent to it. -/
structure ConfirmedBackup (conn : PeerConnection K U) (summary : IngestSummary K U) (key : K)
    (peers : SortedSet U) : Prop where
  idle : summary.mode = .idle
  holdsKey : summary.ingressPubkey = some key ∨
    ∃ s, conn.answers.setIngressPrivateKey key = .ok s ∧ s.ingressPubkey = some key
  holdsPeers : summary.getSortedPeers = some peers ∨
    ∃ s, conn.answers.setPeers peers = .ok s ∧ s.getSortedPeers = some peers

/-- With updates, the key block succeeds only if the peer held the key or holds
it after being sent it. -/
theorem confirmIngressKey_true_eq_ok {conn : PeerConnection K U} {summary : IngestSummary K U}
    {key : K} (h : confirmIngressKey conn summary key true = .ok ()) :
    summary.ingressPubkey = some key ∨
      ∃ s, conn.answers.setIngressPrivateKey key = .ok s ∧ s.ingressPubkey = some key := by
  obtain ⟨peerPubkey, hpeer, h⟩ := Except.bind_eq_ok.1 h
  rw [Option.okOr_eq_ok] at hpeer
  by_cases hkey : peerPubkey = key
  · exact Or.inl (hpeer.trans (congrArg some hkey))
  · right
    rw [if_pos hkey, if_pos rfl] at h
    split at h
    · rename_i s hs
      obtain ⟨peerPubkey', hpeer', h⟩ := Except.bind_eq_ok.1 h
      rw [Option.okOr_eq_ok] at hpeer'
      by_cases hkey' : peerPubkey' = key
      · exact ⟨s, hs, hpeer'.trans (congrArg some hkey')⟩
      · rw [if_pos hkey'] at h
        exact absurd h Except.throw_ne_ok
    · exact absurd h Except.throw_ne_ok

/-- Without updates, the key block only checks that the key parses. -/
theorem confirmIngressKey_false_eq_ok_iff {conn : PeerConnection K U}
    {summary : IngestSummary K U} {key : K} :
    confirmIngressKey conn summary key false = .ok () ↔ summary.ingressPubkey.isSome := by
  cases hk : summary.ingressPubkey with
  | none => simp [confirmIngressKey, hk, bind, Except.bind]
  | some k => by_cases hkey : k = key <;> simp [confirmIngressKey, hk, hkey, bind, Except.bind, pure, Except.pure]

omit [DecidableEq K] in
/-- With updates, the peer list block succeeds only if the peer held the peer
set or holds it after being sent it. -/
theorem confirmPeerList_true_eq_ok {conn : PeerConnection K U} {summary : IngestSummary K U}
    {peers : SortedSet U} (h : confirmPeerList conn summary peers true = .ok ()) :
    summary.getSortedPeers = some peers ∨
      ∃ s, conn.answers.setPeers peers = .ok s ∧ s.getSortedPeers = some peers := by
  obtain ⟨remote, hremote, h⟩ := Except.bind_eq_ok.1 h
  rw [Option.okOr_eq_ok] at hremote
  by_cases hpeers : peers = remote
  · exact Or.inl (hremote.trans (congrArg some hpeers.symm))
  · right
    rw [if_pos hpeers, if_pos rfl] at h
    split at h
    · rename_i s hs
      obtain ⟨remote', hremote', h⟩ := Except.bind_eq_ok.1 h
      rw [Option.okOr_eq_ok] at hremote'
      by_cases hpeers' : remote' = peers
      · exact ⟨s, hs, hremote'.trans (congrArg some hpeers')⟩
      · rw [if_pos hpeers'] at h
        exact absurd h Except.throw_ne_ok
    · exact absurd h Except.throw_ne_ok

omit [DecidableEq K] in
/-- Without updates, the peer list block only checks that the list parses. -/
theorem confirmPeerList_false_eq_ok_iff {conn : PeerConnection K U}
    {summary : IngestSummary K U} {peers : SortedSet U} :
    confirmPeerList conn summary peers false = .ok () ↔ summary.getSortedPeers.isSome := by
  cases hp : summary.getSortedPeers with
  | none => simp [confirmPeerList, hp, bind, Except.bind]
  | some p => by_cases hpeers : peers = p <;> simp [confirmPeerList, hp, hpeers, bind, Except.bind, pure, Except.pure]

/-- A successful check splits into its four parts: the summary was fetched, the
peer is idle, and both blocks passed. -/
theorem confirmBackup_eq_ok_iff {self : IngestController K U R} {conn : PeerConnection K U}
    {cachedSummary : Option (IngestSummary K U)} {cachedOurPubkey : Option K}
    {cachedOurPeers : Option (SortedSet U)} {updateIfWrong : Bool} :
    self.confirmBackup conn cachedSummary cachedOurPubkey cachedOurPeers updateIfWrong = .ok () ↔
      ∃ summary, fetchSummary conn cachedSummary = .ok summary ∧ summary.mode = .idle ∧
        confirmIngressKey conn summary (cachedOurPubkey.getD self.ingressPubkey) updateIfWrong =
          .ok () ∧
        confirmPeerList conn summary (cachedOurPeers.getD self.state.peers) updateIfWrong =
          .ok () := by
  simp only [IngestController.confirmBackup, Except.bind_eq_ok]
  constructor
  · rintro ⟨summary, hfetch, h⟩
    split at h
    · exact absurd h (by simp [throw, throwThe, MonadExceptOf.throw, bind, Except.bind])
    · rename_i hmode
      obtain ⟨⟨⟩, hkey, hpeers⟩ := Except.bind_eq_ok.1 h
      exact ⟨summary, hfetch, hmode, hkey, hpeers⟩
  · rintro ⟨summary, hfetch, hmode, hkey, hpeers⟩
    refine ⟨summary, hfetch, ?_⟩
    simp only [hmode]
    exact Except.bind_eq_ok.2 ⟨(), hkey, hpeers⟩

/-- With updates, a successful check has seen a confirmed backup of the key and
the peer set it checked against. -/
theorem confirmBackup_true_eq_ok {self : IngestController K U R} {conn : PeerConnection K U}
    {cachedSummary : Option (IngestSummary K U)} {cachedOurPubkey : Option K}
    {cachedOurPeers : Option (SortedSet U)}
    (h : self.confirmBackup conn cachedSummary cachedOurPubkey cachedOurPeers true = .ok ()) :
    ∃ summary, fetchSummary conn cachedSummary = .ok summary ∧
      ConfirmedBackup conn summary (cachedOurPubkey.getD self.ingressPubkey)
        (cachedOurPeers.getD self.state.peers) := by
  obtain ⟨summary, hfetch, hmode, hkey, hpeers⟩ := confirmBackup_eq_ok_iff.1 h
  exact ⟨summary, hfetch, hmode, confirmIngressKey_true_eq_ok hkey,
    confirmPeerList_true_eq_ok hpeers⟩

/-- Without updates, the check succeeds exactly on an idle peer whose key and
peer list parse: which key and which peers it holds is never compared. -/
theorem confirmBackup_false_eq_ok_iff {self : IngestController K U R}
    {conn : PeerConnection K U} {cachedSummary : Option (IngestSummary K U)}
    {cachedOurPubkey : Option K} {cachedOurPeers : Option (SortedSet U)} :
    self.confirmBackup conn cachedSummary cachedOurPubkey cachedOurPeers false = .ok () ↔
      ∃ summary, fetchSummary conn cachedSummary = .ok summary ∧ summary.mode = .idle ∧
        summary.ingressPubkey.isSome ∧ summary.getSortedPeers.isSome := by
  rw [confirmBackup_eq_ok_iff]
  simp only [confirmIngressKey_false_eq_ok_iff, confirmPeerList_false_eq_ok_iff]

/-! ## Activation -/

variable [DecidableEq R] [ConnectionUri U R]

/-- The peers {lit}`activate` connects to: all but the server itself.  The
{lit}`expect` on a peer's responder id panics, as {lit}`none`. -/
def otherPeers (localNodeId : R) : List U → Option (List U)
  | [] => some []
  | peer :: peers => do
      let responderId ← ConnectionUri.responderId peer
      let rest ← otherPeers localNodeId peers
      if responderId = localNodeId then some rest else some (peer :: rest)

/-- One step of the first loop of {lit}`activate`: the status of a peer, which
must be reachable and idle. -/
def getIdleStatus (conn : PeerConnection K U) :
    Except (PeerBackupError K U) (IngestSummary K U) :=
  match conn.answers.getStatus with
  | .ok summary =>
      match summary.mode with
      | .active => .error (.anotherActivePeer conn.uri)
      | .idle => .ok summary
  | .error err => .error (.connection err)

/-- The peer phase of {lit}`IngestController::activate`: connect to every other
peer, check that none is active or unreachable, then confirm each as a backup
with updates enabled, against the fetched status. -/
def IngestController.activatePeers (self : IngestController K U R) (net : Network K U) :
    Option (Except (PeerBackupError K U) Unit) := do
  let peers := self.state.peers
  let uris ← otherPeers self.localNodeId peers.toList
  let peerConnections := uris.map (PeerConnection.new net)
  pure do
    let summaries ← peerConnections.mapM getIdleStatus
    (peerConnections.zip summaries).forM fun (conn, summary) =>
      self.confirmBackup conn (some summary) (some self.ingressPubkey) (some peers) true

omit [DecidableEq K] [LinearOrder U] in
/-- The peers {lit}`activate` connects to are exactly the others. -/
theorem mem_otherPeers {localNodeId : R} {peers uris : List U}
    (h : otherPeers localNodeId peers = some uris) {p : U} :
    p ∈ uris ↔ p ∈ peers ∧ ConnectionUri.responderId p ≠ some localNodeId := by
  induction peers generalizing uris with
  | nil =>
    cases h
    simp
  | cons q peers ih =>
    cases hr : ConnectionUri.responderId q with
    | none => simp [otherPeers, hr] at h
    | some r =>
    cases hrest : otherPeers localNodeId peers with
    | none => simp [otherPeers, hr, hrest] at h
    | some rest =>
    simp only [otherPeers, hr, hrest, Option.bind_eq_bind, Option.bind_some] at h
    have ih := ih hrest
    by_cases hq : r = localNodeId
    · rw [if_pos hq] at h
      cases h
      rw [ih, List.mem_cons]
      constructor
      · rintro ⟨hp, hne⟩
        exact ⟨Or.inr hp, hne⟩
      · rintro ⟨rfl | hp, hne⟩
        · exact absurd (hr.trans (congrArg some hq)) hne
        · exact ⟨hp, hne⟩
    · rw [if_neg hq] at h
      cases h
      rw [List.mem_cons, ih, List.mem_cons]
      constructor
      · rintro (rfl | ⟨hp, hne⟩)
        · exact ⟨Or.inl rfl, fun h' => hq (Option.some.inj (hr.symm.trans h'))⟩
        · exact ⟨Or.inr hp, hne⟩
      · rintro ⟨rfl | hp, hne⟩
        · exact Or.inl rfl
        · exact Or.inr ⟨hp, hne⟩

omit [DecidableEq K] in
/-- A peer found idle in the first loop answered its status request with that
summary. -/
theorem getIdleStatus_eq_ok {conn : PeerConnection K U} {summary : IngestSummary K U}
    (h : getIdleStatus conn = .ok summary) :
    conn.answers.getStatus = .ok summary ∧ summary.mode = .idle := by
  unfold getIdleStatus at h
  split at h
  · rename_i s hs
    split at h
    · cases h
    · rename_i hmode
      cases h
      exact ⟨hs, hmode⟩
  · cases h

/-- The peer phase of {lit}`activate` succeeds only after confirming every other
peer as a backup of the enclave's key and the current peer set, on the
answers of that peer. -/
theorem activatePeers_confirmed {self : IngestController K U R} {net : Network K U}
    (h : self.activatePeers net = some (.ok ())) {p : U} (hp : p ∈ self.state.peers)
    (hother : ConnectionUri.responderId p ≠ some self.localNodeId) :
    ∃ summary, (net p).getStatus = .ok summary ∧
      ConfirmedBackup (PeerConnection.new net p) summary self.ingressPubkey self.state.peers := by
  cases huris : otherPeers self.localNodeId self.state.peers.toList with
  | none => simp [IngestController.activatePeers, huris] at h
  | some uris =>
  simp only [IngestController.activatePeers, huris, Option.bind_eq_bind, Option.bind_some,
    Option.pure_def, Option.some.injEq] at h
  obtain ⟨summaries, hsummaries, hconfirm⟩ := Except.bind_eq_ok.1 h
  rw [Except.mapM_eq_ok] at hsummaries
  rw [Except.forM_eq_ok] at hconfirm
  have hconn : PeerConnection.new net p ∈ uris.map (PeerConnection.new net) :=
    List.mem_map_of_mem ((mem_otherPeers huris).2 ⟨hp, hother⟩)
  have hzip : List.Forall₂ (fun conn summary => getIdleStatus conn = .ok summary ∧
      (conn, summary) ∈ (uris.map (PeerConnection.new net)).zip summaries)
      (uris.map (PeerConnection.new net)) summaries :=
    List.forall₂_iff_zip.2 ⟨hsummaries.length_eq, fun hmem =>
      ⟨List.forall₂_zip hsummaries hmem, hmem⟩⟩
  obtain ⟨summary, -, hstatus, hmem⟩ := hzip.exists_of_mem_left hconn
  obtain ⟨summary', hfetch, hconfirmed⟩ := confirmBackup_true_eq_ok (hconfirm _ hmem)
  cases hfetch
  exact ⟨summary, (getIdleStatus_eq_ok hstatus).1, hconfirmed⟩

/-! ## Restoring from a state file -/

/-- {lit}`set_peers_inner`: key each URI by its responder id, a later URI
replacing an earlier one with the same id as in a {lit}`BTreeMap`, require the
server's own id among them, and keep the URIs. -/
def IngestController.setPeersInner (self : IngestController K U R) (peers : List U)
    (state : IngestControllerState U) : Except (SetPeersError R) (IngestControllerState U) := do
  let pairs ← peers.mapM fun uri =>
    (ConnectionUri.responderId uri).okOr SetPeersError.responderId >>= fun r => pure (r, uri)
  let newPeersByResponderId := pairs.foldl
    (fun m (entry : R × U) => entry :: m.filter (·.1 ≠ entry.1)) []
  if (newPeersByResponderId.lookup self.localNodeId).isNone then
    throw (.missingOurResponderId self.localNodeId)
  pure (state.setPeers (SortedSet.ofList (newPeersByResponderId.map Prod.snd)))

/-- The loop of {lit}`restore_state_from_summary` over the stored peers: every
peer but the server itself is checked with updates disabled. -/
def IngestController.confirmStoredPeers (self : IngestController K U R) (net : Network K U)
    (newPeers : SortedSet U) : List U → Except (RestoreStateError K U R) Unit
  | [] => pure ()
  | peerUri :: peerUris => do
      let responderId ← (ConnectionUri.responderId peerUri).okOr (.setPeers .responderId)
      if responderId = self.localNodeId then
        self.confirmStoredPeers net newPeers peerUris
      else
        (self.confirmBackup (.new net peerUri) none (some self.ingressPubkey) (some newPeers)
          false).mapError .backup
        self.confirmStoredPeers net newPeers peerUris

/-- The checks of {lit}`restore_state_from_summary` and the new peer set: an
active state file must carry the enclave's key and every stored peer must
pass the check. -/
def IngestController.restoreChecks (self : IngestController K U R) (env : Environment K U)
    (stateData : IngestSummary K U) :
    Except (RestoreStateError K U R) (IngestControllerState U) := do
  if !self.state.isIdle then throw .serverNotIdle
  let newPeers ← stateData.getSortedPeers.okOr .invalidPeerUri
  let ingressPubkey := self.ingressPubkey
  if stateData.mode ≠ .idle then
    let stateDataIngressPubkey ← stateData.ingressPubkey.okOr .conversion
    if stateDataIngressPubkey ≠ ingressPubkey then
      throw (.ingressKeyMismatch ingressPubkey stateDataIngressPubkey)
    if !env.reportCacheUpdates then throw .reportCache
    self.confirmStoredPeers env.net newPeers newPeers.toList
  (self.setPeersInner newPeers.toList self.state).mapError .setPeers

/-- {lit}`IngestController::restore_state_from_summary`.  The two {lit}`expect`s
on the state setters panic, as {lit}`none`. -/
def IngestController.restoreStateFromSummary (self : IngestController K U R)
    (env : Environment K U) (stateData : IngestSummary K U) :
    Option (Except (RestoreStateError K U R) (IngestController K U R)) :=
  match self.restoreChecks env stateData with
  | .error err => some (.error err)
  | .ok state => do
      let state ← (state.setPubkeyExpiryWindow stateData.pubkeyExpiryWindow).toOption
      let state ← (state.setNextBlockIndex stateData.nextBlockIndex).toOption
      let state := match stateData.mode with
        | .idle => state
        | .active => state.setActive
      pure (.ok { self with state })

omit [LinearOrder U] [ConnectionUri U R] in
/-- The responder ids the map of {lit}`set_peers_inner` holds: those it started
with and those inserted. -/
theorem mem_keys_foldl_insert {pairs : List (R × U)} :
    ∀ {m : List (R × U)} {r : R},
      r ∈ (pairs.foldl (fun m (entry : R × U) => entry :: m.filter (·.1 ≠ entry.1)) m).map
          Prod.fst ↔ r ∈ m.map Prod.fst ∨ r ∈ pairs.map Prod.fst := by
  induction pairs with
  | nil => simp
  | cons e pairs ih =>
    intro m r
    rw [List.foldl_cons, ih]
    by_cases hr : r = e.1
    · simp [hr]
    · simp [hr]

omit [DecidableEq K] in
/-- {lit}`set_peers_inner` succeeds when every URI names a node and one of them
is the server itself; it only replaces the peer set. -/
theorem setPeersInner_eq_ok {self : IngestController K U R} {peers : List U}
    {state : IngestControllerState U}
    (hrid : ∀ p ∈ peers, (ConnectionUri.responderId p).isSome)
    (hlocal : ∃ p ∈ peers, ConnectionUri.responderId p = some self.localNodeId) :
    ∃ newPeers, self.setPeersInner peers state = .ok (state.setPeers newPeers) := by
  let keyed : U → Except (SetPeersError R) (R × U) := fun uri =>
    (ConnectionUri.responderId uri).okOr SetPeersError.responderId >>= fun r => pure (r, uri)
  have hkeyed : ∀ uri r, ConnectionUri.responderId uri = some r → keyed uri = .ok (r, uri) := by
    intro uri r h
    simp [keyed, h, bind, Except.bind, pure, Except.pure]
  obtain ⟨pairs, hpairs⟩ : ∃ pairs, peers.mapM keyed = .ok pairs := by
    refine Except.exists_mapM_eq_ok fun p hp => ?_
    obtain ⟨r, hr⟩ := Option.isSome_iff_exists.1 (hrid p hp)
    exact ⟨(r, p), hkeyed p r hr⟩
  obtain ⟨p, hp, hpl⟩ := hlocal
  have hmem : (self.localNodeId, p) ∈ pairs := by
    obtain ⟨entry, hentry, hke⟩ := (Except.mapM_eq_ok.1 hpairs).exists_of_mem_left hp
    rw [hkeyed p _ hpl] at hke
    cases hke
    exact hentry
  have hkey : self.localNodeId ∈ (pairs.foldl
      (fun m (entry : R × U) => entry :: m.filter (·.1 ≠ entry.1)) []).map Prod.fst :=
    mem_keys_foldl_insert.2 (Or.inr (List.mem_map_of_mem hmem))
  obtain ⟨⟨r, u⟩, hru, hr⟩ := List.mem_map.1 hkey
  refine ⟨SortedSet.ofList ((pairs.foldl
      (fun m (entry : R × U) => entry :: m.filter (·.1 ≠ entry.1)) []).map Prod.snd), ?_⟩
  simp only [IngestController.setPeersInner, Except.bind_eq_ok]
  refine ⟨pairs, hpairs, ?_⟩
  simp [pure, Except.pure, bind, Except.bind]
  exact ⟨u, by simpa [← hr] using hru⟩

/-- The loop of {lit}`restore_state_from_summary` succeeds exactly when every
stored URI names a node and every peer other than the server passes the check
without updates. -/
theorem confirmStoredPeers_eq_ok_iff {self : IngestController K U R} {net : Network K U}
    {newPeers : SortedSet U} {uris : List U} :
    self.confirmStoredPeers net newPeers uris = .ok () ↔
      ∀ p ∈ uris, ∃ r, ConnectionUri.responderId p = some r ∧
        (r ≠ self.localNodeId → self.confirmBackup (.new net p) none (some self.ingressPubkey)
          (some newPeers) false = .ok ()) := by
  induction uris with
  | nil => simp [IngestController.confirmStoredPeers, pure, Except.pure]
  | cons q uris ih =>
    rw [List.forall_mem_cons, ← ih]
    cases hq : ConnectionUri.responderId q with
    | none => simp [IngestController.confirmStoredPeers, hq, bind, Except.bind]
    | some r =>
      by_cases hr : r = self.localNodeId
      · simp [IngestController.confirmStoredPeers, hq, hr, bind, Except.bind]
      · simp [IngestController.confirmStoredPeers, hq, hr, and_comm]

/-- Restoring an active state file makes the server active as soon as every
stored peer reports itself idle with a key and a peer list that parse: the
check without updates compares neither with the server's own, so peers that
hold another key or another peer list are accepted as backups. -/
theorem restoreStateFromSummary_activates_of_idle_peers {self : IngestController K U R}
    {env : Environment K U} {stateData : IngestSummary K U} {newPeers : SortedSet U}
    (hidle : self.state.mode = .idle) (hmode : stateData.mode = .active)
    (hpeers : stateData.getSortedPeers = some newPeers)
    (hkey : stateData.ingressPubkey = some self.ingressPubkey)
    (hcache : env.reportCacheUpdates = true)
    (hrid : ∀ p ∈ newPeers, (ConnectionUri.responderId p).isSome)
    (hlocal : ∃ p ∈ newPeers, ConnectionUri.responderId p = some self.localNodeId)
    (hanswers : ∀ p ∈ newPeers, ConnectionUri.responderId p ≠ some self.localNodeId →
      ∃ s, (env.net p).getStatus = .ok s ∧ s.mode = .idle ∧ s.ingressPubkey.isSome ∧
        s.getSortedPeers.isSome) :
    ∃ ctl, self.restoreStateFromSummary env stateData = some (.ok ctl) ∧
      ctl.state.mode = .active ∧ ctl.ingressPubkey = self.ingressPubkey := by
  have hconfirm : self.confirmStoredPeers env.net newPeers newPeers.toList = .ok () := by
    refine confirmStoredPeers_eq_ok_iff.2 fun p hp => ?_
    obtain ⟨r, hr⟩ := Option.isSome_iff_exists.1 (hrid p hp)
    refine ⟨r, hr, fun hne => ?_⟩
    obtain ⟨s, hs, hsidle, hskey, hspeers⟩ := hanswers p hp (by rw [hr]; exact fun h => hne (Option.some.inj h))
    exact confirmBackup_false_eq_ok_iff.2
      ⟨s, by simp [fetchSummary, PeerConnection.new, hs, Except.mapError], hsidle, hskey, hspeers⟩
  obtain ⟨peerSet, hset⟩ : ∃ peerSet, self.setPeersInner newPeers.toList self.state =
      .ok (self.state.setPeers peerSet) := setPeersInner_eq_ok
    (fun p hp => hrid p (SortedSet.mem_toList.1 hp))
    (let ⟨p, hp, hpl⟩ := hlocal; ⟨p, SortedSet.mem_toList.2 hp, hpl⟩)
  have hchecks : self.restoreChecks env stateData = .ok (self.state.setPeers peerSet) := by
    simp [IngestController.restoreChecks, IngestControllerState.isIdle, hidle, hpeers, hmode, hkey,
      hcache, hconfirm, hset, bind, Except.bind, Except.mapError]
  refine ⟨{ self with state := ({ self.state.setPeers peerSet with
    pubkeyExpiryWindow := stateData.pubkeyExpiryWindow
    nextBlockIndex := stateData.nextBlockIndex }).setActive }, ?_, rfl, rfl⟩
  simp [IngestController.restoreStateFromSummary, hchecks, IngestControllerState.setPubkeyExpiryWindow,
    IngestControllerState.setNextBlockIndex, hidle, hmode, Except.toOption]

omit [DecidableEq K] in
/-- A successful {lit}`set_peers_inner` changes only the peer set. -/
theorem setPeersInner_eq_ok_setPeers {self : IngestController K U R} {peers : List U}
    {state st : IngestControllerState U} (h : self.setPeersInner peers state = .ok st) :
    ∃ newPeers, st = state.setPeers newPeers := by
  simp only [IngestController.setPeersInner, Except.bind_eq_ok] at h
  obtain ⟨pairs, -, h⟩ := h
  split at h
  · cases h
  · exact ⟨_, (Except.ok.inj h).symm⟩

/-- The checks of a restore pass only while idle, and change only the peer set. -/
theorem restoreChecks_eq_ok {self : IngestController K U R} {env : Environment K U}
    {stateData : IngestSummary K U} {st : IngestControllerState U}
    (h : self.restoreChecks env stateData = .ok st) :
    self.state.mode = .idle ∧ ∃ newPeers, st = self.state.setPeers newPeers := by
  by_cases hidle : self.state.mode = .idle
  · refine ⟨hidle, ?_⟩
    simp [IngestController.restoreChecks, IngestControllerState.isIdle, hidle] at h
    obtain ⟨newPeers, -, h⟩ := h
    split at h
    · exact setPeersInner_eq_ok_setPeers (Except.mapError_eq_ok.1 h)
    · obtain ⟨key, -, h⟩ := Except.bind_eq_ok.1 h
      split at h
      · split at h
        · simp at h
        · obtain ⟨_, -, h⟩ := Except.bind_eq_ok.1 h
          exact setPeersInner_eq_ok_setPeers (Except.mapError_eq_ok.1 h)
      · simp at h
  · simp [IngestController.restoreChecks, IngestControllerState.isIdle, hidle] at h

/-- A restore keeps the enclave's key and the invocation, and takes the mode
and the next block index from the state file. -/
theorem restoreStateFromSummary_eq_ok {self ctl : IngestController K U R} {env : Environment K U}
    {stateData : IngestSummary K U}
    (h : self.restoreStateFromSummary env stateData = some (.ok ctl)) :
    ctl.ingressPubkey = self.ingressPubkey ∧
      ctl.state.ingestInvocationId = self.state.ingestInvocationId ∧
      ctl.state.mode = stateData.mode ∧ ctl.state.nextBlockIndex = stateData.nextBlockIndex := by
  unfold IngestController.restoreStateFromSummary at h
  split at h
  · cases h
  · rename_i st hchecks
    obtain ⟨hidle, newPeers, rfl⟩ := restoreChecks_eq_ok hchecks
    simp [IngestControllerState.setPubkeyExpiryWindow, IngestControllerState.setNextBlockIndex,
      IngestControllerState.setPeers, hidle, Except.toOption] at h
    subst h
    cases stateData.mode <;> simp [IngestControllerState.setActive]

/-- URIs that are the responder ids of the nodes they point to. -/
instance : ConnectionUri Nat Nat :=
  ⟨some⟩

/-- The status of a node that is idle but backs up another ingress key (8) and
another peer set ({lit}`{2}`). -/
def staleBackupStatus : IngestSummary Nat Nat :=
  { mode := .idle, nextBlockIndex := 0, pubkeyExpiryWindow := 0, ingestInvocationId := 0,
    ingressPubkey := some 8, peers := [some 2] }

/-- Peers that all report {lit}`staleBackupStatus` and cannot be updated. -/
def staleBackupNetwork : Network Nat Nat := fun _ =>
  { getStatus := .ok staleBackupStatus
    setIngressPrivateKey := fun _ => .error .channelSend
    setPeers := fun _ => .error .channelSend }

/-- Node 1 of the cluster {lit}`{1, 2}`, idle at start-up, whose enclave holds key 7. -/
def restartingController : IngestController Nat Nat Nat :=
  { localNodeId := 1, state := .new 10 (SortedSet.ofList [1, 2]), ingressPubkey := 7 }

/-- The state file node 1 wrote while active with key 7. -/
def activeStateFile : IngestSummary Nat Nat :=
  { mode := .active, nextBlockIndex := 5, pubkeyExpiryWindow := 10, ingestInvocationId := 3,
    ingressPubkey := some 7, peers := [some 1, some 2] }

/-- Node 1 restarts against a backup whose key and peers are stale, and
activates from its active state file with its own key. -/
theorem restoreStateFromSummary_activates_of_idle_peers_stale :
    staleBackupStatus.ingressPubkey ≠ some restartingController.ingressPubkey ∧
      staleBackupStatus.getSortedPeers ≠ some restartingController.state.peers ∧
      ∃ ctl, restartingController.restoreStateFromSummary ⟨staleBackupNetwork, true⟩
          activeStateFile = some (.ok ctl) ∧
        ctl.state.mode = .active ∧ ctl.ingressPubkey = restartingController.ingressPubkey :=
  ⟨by decide, by decide,
    restoreStateFromSummary_activates_of_idle_peers rfl rfl
      (by decide : activeStateFile.getSortedPeers = some (SortedSet.ofList [1, 2])) rfl rfl
      (by decide) (by decide)
      fun _ _ _ => ⟨staleBackupStatus, rfl, rfl, rfl, by decide⟩⟩

/-! ## Checking up on peers -/

/-- The loop of {lit}`peer_checkup`: skip the server's own URI and URIs without
a responder id, check every other peer with updates enabled, and stop after a
peer reports that the enclave's key changed.  The outcome of each check is
what the source logs. -/
def IngestController.checkupPeers (self : IngestController K U R) (net : Network K U) :
    List U → List (U × Except (PeerBackupError K U) Unit)
  | [] => []
  | peerUri :: peerUris =>
      match ConnectionUri.responderId peerUri with
      | none => self.checkupPeers net peerUris
      | some responderId =>
          if responderId = self.localNodeId then self.checkupPeers net peerUris
          else
            match self.confirmBackup (.new net peerUri) none none none true with
            | .error (.connection (.unexpectedKeyInEnclave key)) =>
                [(peerUri, .error (.connection (.unexpectedKeyInEnclave key)))]
            | result => (peerUri, result) :: self.checkupPeers net peerUris

/-- {lit}`IngestController::peer_checkup`: nothing while idle or without peers;
a failure to refresh the report cache is only logged. -/
def IngestController.peerCheckup (self : IngestController K U R) (net : Network K U) :
    List (U × Except (PeerBackupError K U) Unit) :=
  if self.state.isIdle then []
  else if self.state.peers.toList.isEmpty then []
  else self.checkupPeers net self.state.peers.toList

/-- Every peer the checkup loop reports as confirmed was seen as a backup of
the enclave's key and the state's peers. -/
theorem checkupPeers_confirmed {self : IngestController K U R} {net : Network K U} {p : U} :
    ∀ {uris : List U}, (p, .ok ()) ∈ self.checkupPeers net uris →
      ∃ s, (net p).getStatus = .ok s ∧
        ConfirmedBackup (PeerConnection.new net p) s self.ingressPubkey self.state.peers
  | [], h => absurd h List.not_mem_nil
  | q :: uris, h => by
    cases hq : ConnectionUri.responderId q with
    | none =>
      simp only [IngestController.checkupPeers, hq] at h
      exact checkupPeers_confirmed h
    | some r =>
    by_cases hr : r = self.localNodeId
    · simp only [IngestController.checkupPeers, hq, hr, if_true] at h
      exact checkupPeers_confirmed h
    · cases hres : self.confirmBackup (.new net q) none none none true with
      | error err =>
        simp only [IngestController.checkupPeers, hq, hr, if_false, hres] at h
        split at h
        · simp at h
        · rcases List.mem_cons.1 h with h | h
          · simp at h
          · exact checkupPeers_confirmed h
      | ok u =>
        simp only [IngestController.checkupPeers, hq, hr, if_false, hres, List.mem_cons,
          Prod.mk.injEq] at h
        rcases h with ⟨rfl, -⟩ | h
        · obtain ⟨s, hfetch, hconfirmed⟩ := confirmBackup_true_eq_ok hres
          exact ⟨s, by simpa [fetchSummary, PeerConnection.new] using hfetch, hconfirmed⟩
        · exact checkupPeers_confirmed h

end Ingest
end Fog
