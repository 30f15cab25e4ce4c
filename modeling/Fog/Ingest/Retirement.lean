import Fog.Ingest.Contiguity

/-!
# Retiring a key and the reports published for it

A fog report promises that the blocks up to its {lit}`pubkey_expiry` are
scanned with its ingress key.  {lit}`set_report` raises the key's expiry to
every report it stores and stores none for a retired key, and the retirement
exit of {lit}`process_next_block` stops a server once its key is retired and
the next block is past the expiry its report returned.

Across any interleaving of the servers and the operators, a key's expiry never
goes down and bounds every report stored for it, and each event stores at most
one report, for a key its transaction saw unretired.  A server that takes the
retirement exit has scanned every block a stored report covers as long as the
key stays retired from its report to its exit; an operator who unretires the
key in between lets another server publish a report past the block where the
first one stops.

Main results:

- Theorem {lit}`World.reportsBounded_run`: every run keeps each report below
  its key's expiry.
- Theorem {lit}`World.reports_step`: an event stores at most one report, for an
  unretired key.
- Theorem {lit}`World.run_frame`: events of other servers and of operators that
  do not unretire a retired key leave a server and the key's status as they
  are.
-/

namespace Fog
namespace Ingest

open RecoveryDb

/-- The server an event runs on; an operator's retirement runs on none. -/
def Event.server {K U : Type} [LinearOrder U] : Event K U → Option Nat
  | .step i _ => some i
  | .activate i _ _ _ => some i
  | .restart i _ => some i
  | .retire _ _ => none

namespace DbStep

variable {K Rec : Type} [DecidableEq K] {key : K} {db db' : SqlRecoveryDb K Rec}

/-- Only {lit}`set_report` writes reports. -/
theorem reports_or_setReport (h : DbStep key db db') :
    db'.reports = db.reports ∨
      ∃ reportId data result, db.setReport key reportId data = .ok (result, db') := by
  cases h with
  | refl => exact .inl rfl
  | setReport h => exact .inr ⟨_, _, _, h⟩
  | newIngressKey startBlock => exact .inl rfl
  | newIngestInvocation h => exact .inl (SqlRecoveryDb.newIngestInvocation_frame h).1
  | addBlockData h => exact .inl (SqlRecoveryDb.addBlockData_frame h).1
  | decommissionIngestInvocation h =>
      exact .inl (SqlRecoveryDb.decommissionIngestInvocation_frame h).1

/-- Every step of a server keeps the reports bounded. -/
theorem reportsBounded (h : DbStep key db db') (hb : db.ReportsBounded) : db'.ReportsBounded := by
  rcases h.reports_or_setReport with hreports | ⟨_, _, _, hset⟩
  · exact hb.of_grows h.grows hreports
  · exact SqlRecoveryDb.reportsBounded_setReport hb hset

/-- A step stores at most one report, for a key its transaction saw unretired. -/
theorem reports_append (h : DbStep key db db') :
    db'.reports = db.reports ∨ ∃ row, db'.reports = db.reports ++ [row] ∧
      (db.tables.ingressKeys row.ingressPublicKey).map (·.retired) = some false := by
  rcases h.reports_or_setReport with hreports | ⟨_, _, _, hset⟩
  · exact .inl hreports
  · rcases SqlRecoveryDb.reports_setReport hset with hreports | ⟨hretired, hreports⟩
    · exact .inl hreports
    · exact .inr ⟨_, hreports, hretired⟩

/-- A step leaves a retired key's status as it is. -/
theorem ingressKeys_of_retired (h : DbStep key db db') {k : K} {status : IngressPublicKeyStatus}
    (hk : db.tables.ingressKeys k = some status) (hretired : status.retired = true) :
    db'.tables.ingressKeys k = some status := by
  cases h with
  | refl => exact hk
  | setReport h => exact SqlRecoveryDb.ingressKeys_setReport_of_retired hk hretired h
  | newIngressKey startBlock => exact SqlRecoveryDb.ingressKeys_newIngressKey_of_some hk
  | newIngestInvocation h =>
      rw [(SqlRecoveryDb.newIngestInvocation_frame h).2]
      exact hk
  | addBlockData h =>
      rw [(SqlRecoveryDb.addBlockData_frame h).2]
      exact hk
  | decommissionIngestInvocation h =>
      rw [(SqlRecoveryDb.decommissionIngestInvocation_frame h).2]
      exact hk

end DbStep

namespace World

variable {K U R E Txo Rec : Type} [DecidableEq K] [LinearOrder U] [DecidableEq R]
  [ConnectionUri U R] (api : EnclaveApi E Txo Rec) (ledger : Nat → LedgerBlock Txo)
  {w : World K U R E Txo Rec}

/-- What an event does to the database: a step of one server, or an
operator's retirement. -/
theorem db_step (w : World K U R E Txo Rec) (e : Event K U) :
    (∃ i, DbStep (w.servers i).key w.db (step api ledger w e).db) ∨
      ∃ key setRetired, (step api ledger w e).db = w.db.retireIngressKey key setRetired ∧
        e = .retire key setRetired := by
  cases e with
  | step i outcome => exact .inl ⟨i, IngestServer.step_db api ledger⟩
  | activate i _ _ _ => exact .inl ⟨i, .refl⟩
  | restart i _ => exact .inl ⟨i, .refl⟩
  | retire key setRetired => exact .inr ⟨key, setRetired, rfl, rfl⟩

/-- Every event grows the database. -/
theorem grows_step (w : World K U R E Txo Rec) (e : Event K U) :
    w.db.Grows (step api ledger w e).db := by
  rcases db_step api ledger w e with ⟨i, h⟩ | ⟨key, setRetired, hdb, -⟩
  · exact h.grows
  · rw [hdb]
    exact SqlRecoveryDb.grows_retireIngressKey _ _ _

/-- The database only grows along a run. -/
theorem grows_run (w : World K U R E Txo Rec) (events : List (Event K U)) :
    w.db.Grows (run api ledger w events).db := by
  induction events generalizing w with
  | nil => exact SqlRecoveryDb.Grows.refl _
  | cons e events ih => exact (grows_step api ledger w e).trans (ih _)

/-- Every event keeps the reports bounded. -/
theorem reportsBounded_step (hb : w.db.ReportsBounded) (e : Event K U) :
    (step api ledger w e).db.ReportsBounded := by
  rcases db_step api ledger w e with ⟨i, h⟩ | ⟨key, setRetired, hdb, -⟩
  · exact h.reportsBounded hb
  · rw [hdb]
    exact hb.of_grows (SqlRecoveryDb.grows_retireIngressKey _ _ _) rfl

/-- Every run from a new deployment keeps each stored report's expiry at most
its key's. -/
theorem reportsBounded_run (servers : Nat → IngestServer K U R E Txo Rec)
    (events : List (Event K U)) : (run api ledger (new api servers) events).db.ReportsBounded :=
  invariant_run api ledger (P := fun w => w.db.ReportsBounded)
    (fun _ e hb => reportsBounded_step api ledger hb e) events SqlRecoveryDb.reportsBounded_empty

/-- An event stores at most one report, for a key that its transaction saw
unretired. -/
theorem reports_step (w : World K U R E Txo Rec) (e : Event K U) :
    (step api ledger w e).db.reports = w.db.reports ∨
      ∃ row, (step api ledger w e).db.reports = w.db.reports ++ [row] ∧
        (w.db.tables.ingressKeys row.ingressPublicKey).map (·.retired) = some false := by
  rcases db_step api ledger w e with ⟨i, h⟩ | ⟨key, setRetired, hdb, -⟩
  · exact h.reports_append
  · rw [hdb]
    exact .inl rfl

/-- An event other than unretiring a retired key leaves its status as it is. -/
theorem ingressKeys_step_of_retired {k : K} {status : IngressPublicKeyStatus}
    (hk : w.db.tables.ingressKeys k = some status) (hretired : status.retired = true)
    {e : Event K U} (he : e ≠ .retire k false) :
    (step api ledger w e).db.tables.ingressKeys k = some status := by
  rcases db_step api ledger w e with ⟨i, h⟩ | ⟨key, setRetired, hdb, rfl⟩
  · exact h.ingressKeys_of_retired hk hretired
  · rw [hdb]
    by_cases hkey : k = key
    · subst hkey
      cases setRetired
      · exact absurd rfl he
      · exact SqlRecoveryDb.ingressKeys_retireIngressKey_true hk hretired
    · rw [SqlRecoveryDb.ingressKeys_retireIngressKey_of_ne hkey]
      exact hk

/-- An event of another server or of an operator leaves the server as it is. -/
theorem servers_step_of_server_ne {i : Nat} {e : Event K U} (he : e.server ≠ some i) :
    (step api ledger w e).servers i = w.servers i := by
  cases e with
  | step j _ => exact update_servers_of_ne w _ _ fun h => he (h ▸ rfl)
  | activate j _ _ _ => exact update_servers_of_ne w _ _ fun h => he (h ▸ rfl)
  | restart j _ => exact update_servers_of_ne w _ _ fun h => he (h ▸ rfl)
  | retire _ _ => rfl

/-- Events of other servers and of operators that do not unretire a retired
key leave a server and the key's status as they are. -/
theorem run_frame {i : Nat} {k : K} {status : IngressPublicKeyStatus}
    (mid : List (Event K U)) (hmid : ∀ e ∈ mid, e.server ≠ some i ∧ e ≠ .retire k false)
    (hk : w.db.tables.ingressKeys k = some status) (hretired : status.retired = true) :
    (run api ledger w mid).servers i = w.servers i ∧
      (run api ledger w mid).db.tables.ingressKeys k = some status := by
  induction mid generalizing w with
  | nil => exact ⟨rfl, hk⟩
  | cons e mid ih =>
      obtain ⟨hserver, hretire⟩ := hmid e List.mem_cons_self
      obtain ⟨hs, hk'⟩ := ih (fun e he => hmid e (List.mem_cons_of_mem _ he))
        (ingressKeys_step_of_retired api ledger hk hretired hretire)
      exact ⟨hs.trans (servers_step_of_server_ne api ledger hserver), hk'⟩

/-- The report step of a ready active server leaves its key with the status it
returns, and changes only the server's phase. -/
theorem publish_step {i : Nat} {outcome : Outcome} {status : IngressPublicKeyStatus}
    (hready : (w.servers i).phase = .ready) (hactive : (w.servers i).state.mode = .active)
    (hpub : ((step api ledger w (.step i outcome)).servers i).phase = .reported (some status)) :
    (step api ledger w (.step i outcome)).db.tables.ingressKeys (w.servers i).key = some status ∧
      ((step api ledger w (.step i outcome)).servers i).key = (w.servers i).key := by
  have hstep : (w.servers i).step api ledger outcome w.db =
      (w.servers i).publishReport outcome w.db := by
    unfold IngestServer.step
    rw [hready]
    exact if_pos hactive
  simp only [step, hstep, update_servers_self, update_db, IngestServer.publishReport] at hpub ⊢
  have hset := transact_eq_some (Phase.reported.inj hpub)
  exact ⟨SqlRecoveryDb.ingressKeys_setReport hset, rfl⟩

/-- A server holding its report's status takes the retirement exit when the key
is retired and the next block is past the expiry: it goes idle to drop its
egress key, and the database is left as it is. -/
theorem exit_step {i : Nat} (outcome : Outcome) {status : IngressPublicKeyStatus}
    (hreported : (w.servers i).phase = .reported (some status))
    (hpast : (w.servers i).retiredPast status = true) :
    ((step api ledger w (.step i outcome)).servers i).state.mode = .idle ∧
      ((step api ledger w (.step i outcome)).servers i).phase = .decommissioning ∧
      (step api ledger w (.step i outcome)).db = w.db := by
  have hstep : (w.servers i).step api ledger outcome w.db =
      ({ (w.servers i).withState (w.servers i).state.setIdle with phase := .decommissioning },
        w.db) := by
    unfold IngestServer.step
    rw [hreported]
    unfold IngestServer.proceed
    exact if_pos hpast
  simp only [step, hstep, update_servers_self, update_db, and_true]
  rfl

end World

/-! ## Unretiring a key between a report and the exit -/

/-- Server 0 scans block 0 and, with the key retired, reports for block 1; the
key is unretired, and server 1 activates at block 1 and reports. -/
def unretireRace : List (Event Nat Nat) :=
  activateAndScanBlock ++ [.retire 7 true, .step 0 .succeeds, .retire 7 false,
    .activate 1 0 exampleEnv .succeeds, .step 1 .succeeds, .step 1 .succeeds]

end Ingest
end Fog
