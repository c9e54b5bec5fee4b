import LedgerFlow.Ledger.Deadlock
import LedgerFlow.Ledger.Solo
import LedgerFlow.Ledger.Solvency

/-! The interleaved calls come to what the calls that have committed come to one after the other. -/

namespace LedgerFlow.Ledger
open Accounts Outbox Concurrency

namespace Tables
variable {a b : Tables}

@[simp] theorem ids_undated (t : Tables) : t.undated.ids = t.ids := by
  simp [ids, undated, Function.comp_def]

@[simp] theorem keys_undated (t : Tables) : t.undated.keys = t.keys := by
  simp [keys, undated, List.filterMap_map]

theorem undated_append (a b : Tables) : (a ++ b).undated = a.undated ++ b.undated := by
  ext1 <;> simp [undated]

theorem accounts_of_undated (same : a.undated = b.undated) : a.accounts = b.accounts :=
  show a.undated.accounts = b.undated.accounts by rw [same]

theorem entries_of_undated (same : a.undated = b.undated) : a.entries = b.entries :=
  show a.undated.entries = b.undated.entries by rw [same]

theorem ids_of_undated (same : a.undated = b.undated) : a.ids = b.ids := by
  rw [← ids_undated, same, ids_undated]

theorem keys_of_undated (same : a.undated = b.undated) : a.keys = b.keys := by
  rw [← keys_undated, same, keys_undated]

theorem Consistent.of_undated (consistent : a.Consistent) (same : b.undated = a.undated) : b.Consistent := by
  have accounts := accounts_of_undated same
  have entries := entries_of_undated same
  have keys := keys_of_undated same
  have transactionIds := congrArg (fun t : Tables => t.transactions.map (·.transactionId)) same
  have eventIds := congrArg (fun t : Tables => t.events.map (·.eventId)) same
  simp only [undated, List.map_map, Function.comp_def] at transactionIds eventIds
  refine ⟨?_, ?_, ?_, ?_, ?_, ?_, ?_⟩
  · rw [accounts]; exact consistent.accountIds
  · rw [transactionIds]; exact consistent.transactionIds
  · rw [eventIds]; exact consistent.eventIds
  · rw [keys]; exact consistent.idempotencyKeys
  · rw [keys]; exact consistent.fits
  · rw [transactionIds, entries]; exact consistent.transactionOf
  · rw [accounts, entries]; exact consistent.accountOf

end Tables

variable {env : Deployment} {db db' : Tables} {request : Request} {P : Posting} {p q : ℕ}
  {w w' u : World} {φ : Progress}

theorem PostedBy.transport (posted : PostedBy env db request P) (accounts : db'.accounts = db.accounts)
    (entries : db'.entries = db.entries) : PostedBy env db' request P := by
  have funded : ∀ {x total}, db.Funded x total → db'.Funded x total := by
    intro x total funded
    rw [Tables.Funded, Tables.IsSystemCash, Tables.balance, Tables.amounts, accounts, entries]
    exact funded
  cases posted with
  | deposit account system amount transaction debit credit eventId eventAt found active cash isCash typed
      keyless stored =>
    exact .deposit account system amount transaction debit credit eventId eventAt (accounts ▸ found) active
      (accounts ▸ cash) isCash typed keyless stored
  | withdrawal account system amount transaction debit credit eventId eventAt total found active cash
      isCash typed keyless stored balance covered =>
    exact .withdrawal account system amount transaction debit credit eventId eventAt total (accounts ▸ found) active
      (accounts ▸ cash) isCash typed keyless stored (funded balance) covered
  | transfer source destination amount key transaction debit credit eventId eventAt total found found'
      different active active' currencies short typed keyed hashed stored balance covered =>
    exact .transfer source destination amount key transaction debit credit eventId eventAt total (accounts ▸ found)
      (accounts ▸ found') different active active' currencies short typed keyed hashed stored
        (funded balance) covered

def Progress.Funded (φ : Progress) (w : World) : Prop :=
  ∀ x total, (x, total) ∈ φ.sums → x ∈ φ.locked → total.toRat ≤ w.db.balance x / 100

/-- A call has drawn different ids, and none that was issued at the start `u`. -/
structure Progress.Drawn (u : World) (φ : Progress) (w : World) : Prop where
  once : φ.ids.Nodup
  issued : ∀ id ∈ φ.ids, id ∈ w.issued.map (·.2)
  new : ∀ id ∈ φ.ids, id ∉ u.issued.map (·.2)
  kept : ∀ id ∈ u.issued.map (·.2), id ∈ w.issued.map (·.2)

theorem Progress.Funded.keep {ψ : Progress} (funded : φ.Funded w) (db : w'.db = w.db) (sums : ψ.sums = φ.sums)
    (locked : ψ.locked = φ.locked) : ψ.Funded w' := by
  rw [Funded, sums, locked, db]
  exact funded

theorem Progress.Funded.own {stmt : Stmt} {choice : Choice} {result : stmt.Result} (funded : φ.Funded w)
    (tracks : φ.Tracks env p w) (allowed : φ.Allowed request stmt)
    (executed : exec env p stmt choice w = some (result, w')) : (φ.after stmt result).Funded w' := by
  have db := (exec_frame executed).1
  cases stmt with
  | sumEntries y =>
    cases executed
    intro x total summed locked
    rcases List.mem_cons.1 summed with same | earlier
    · cases same
      rw [tracks.visible allowed, Tables.total_toRat]
    · exact funded x total earlier locked
  | lockAccount y =>
    intro x total summed
    change (x, total) ∈ φ.sums at summed
    rw [allowed.2.1] at summed
    cases summed
  | insertAccount | insertTransaction =>
    cases result <;> exact funded.keep (db nofun) rfl rfl
  | insertEntry transactionId y amount =>
    cases result with
    | error error => exact funded.keep (db nofun) rfl rfl
    | ok _ =>
      cases stored : Numeric.cast 20 2 amount <;> simp only [Progress.after, stored] <;>
        exact funded.keep (db nofun) rfl rfl
  | commit | rollback => exact nofun
  | _ => exact funded.keep (db nofun) rfl rfl

theorem Progress.Drawn.own {stmt : Stmt} {choice : Choice} {result : stmt.Result} (drawn : φ.Drawn u w)
    (executed : exec env p stmt choice w = some (result, w')) : (φ.after stmt result).Drawn u w' := by
  have issued := mem_issued_of_exec executed
  have kept : ∀ ψ : Progress, ψ.ids = φ.ids → ψ.Drawn u w' := by
    intro ψ same
    refine ⟨same ▸ drawn.once, fun id member => ?_, fun id member => ?_, fun id member =>
      issued id (drawn.kept id member)⟩
    · exact issued id (drawn.issued id (same ▸ member))
    · exact drawn.new id (same ▸ member)
  cases stmt with
  | uuid4 =>
    cases choice <;> simp only [exec] at executed
    · cases executed
    · split_ifs at executed with used
      cases executed
      rw [not_or] at used
      refine ⟨List.nodup_cons.2 ⟨fun member => used.1 (drawn.issued _ member), drawn.once⟩, fun id member => ?_,
        fun id member => ?_, fun id member => issued id (drawn.kept id member)⟩
      · rcases List.mem_cons.1 member with rfl | earlier
        · exact List.mem_cons_self
        · exact issued id (drawn.issued id earlier)
      · rcases List.mem_cons.1 member with rfl | earlier
        · exact fun old => used.1 (drawn.kept _ old)
        · exact drawn.new id earlier
    · cases executed
  | insertAccount | insertTransaction => cases result <;> exact kept _ rfl
  | insertEntry transactionId y amount =>
    cases result with
    | error error => exact kept _ rfl
    | ok _ => cases stored : Numeric.cast 20 2 amount <;> simp only [Progress.after, stored] <;> exact kept _ rfl
  | commit | rollback =>
    exact ⟨List.nodup_nil, fun _ member => absurd member List.not_mem_nil, fun _ member =>
      absurd member List.not_mem_nil, fun id member => issued id (drawn.kept id member)⟩
  | _ => exact kept _ rfl

section Runs
variable {ok : State (machine env) → Action (machine env) → Prop} {s t : State (machine env)}
  {a : Action (machine env)} {trace : List (Executed language)}

theorem issued_of_step (stepped : (machine env).step s a = some t) :
    ∀ id ∈ (World.issued s.world).map (·.2), id ∈ (World.issued t.world).map (·.2) := by
  rcases Machine.step_cases stepped with ⟨p, request, rfl, fresh, rfl⟩ |
    ⟨p, choice, proc, stmt, next, result, w', rfl, found, rest, executed, rfl⟩ |
    ⟨p, proc, rfl, found, running, rfl⟩ | ⟨p, proc, rfl, found, finished, rfl⟩ | ⟨e, w', rfl, ticked, rfl⟩
  · exact fun _ => id
  · exact mem_issued_of_exec executed
  · exact fun _ => id
  · exact fun _ => id
  · cases ticked
    exact fun _ => id

theorem drawn_of_traces (traces : (machine env).Traces ok ((machine env).initial w) trace s)
    (running : Protocol.Open s p) : (progress env p trace).Drawn w s.world := by
  refine Protocol.knows_of_traces (P := procedure env) (K := fun _ φ u => φ.Drawn w u)
    (fun _ => ⟨List.nodup_nil, nofun, nofun, fun _ => id⟩) ?_ ?_ traces running
  · exact fun _ _ _ _ executed drawn => drawn.own executed
  · intro trace s t a q _ _ stepped _ _ _ drawn
    have issued := issued_of_step stepped
    exact ⟨drawn.once, fun id member => issued id (drawn.issued id member), drawn.new,
      fun id member => issued id (drawn.kept id member)⟩

theorem funded_of_traces (locks : env.foreignKeyLocks) (opening : w.Opening)
    (traces : (machine env).Traces ok ((machine env).initial w) trace s) (running : Protocol.Open s p) :
    (progress env p trace).Funded s.world := by
  refine Protocol.knows_of_traces (P := procedure env) (K := fun _ φ w => φ.Funded w) (fun _ => nofun) ?_
    ?_ traces running
  · intro trace s p proc choice stmt next result w' traces _ found rest executed funded
    exact funded.own (tracks_of_traces opening traces (Protocol.open_of_call found rest))
      (allowed_of_traces traces found rest) executed
  · intro trace s t a q traces _ stepped other _ running funded x total summed locked
    have held := ((tracks_of_traces opening traces running).forUpdate x).2 locked
    have more : (s.world.db.balance x : ℚ) ≤ t.world.db.balance x :=
      Int.cast_le.2 (funds_of_step opening traces stepped other held (.inl locks)).1
    have before := funded x total summed locked
    linarith

def Static (env : Deployment) (_ : State (machine env)) (a : Action (machine env)) : Prop :=
  ∀ p created, a ≠ .start p (.createAccount created)

/-- The serial ledger has the same rows, up to the times. -/
structure Mirrors (w : World) (s : State (machine env)) (u : World) : Prop where
  same : u.db.undated = s.world.db.undated
  idle : u.Idle
  issued : ∀ id ∈ u.issued.map (·.2), id ∈ w.issued.map (·.2) ∨ id ∈ u.db.ids

theorem admits_of_commit (locks : env.foreignKeyLocks) (opening : w.Opening)
    (traces : (machine env).Traces (Static env) ((machine env).initial w) trace s) {proc : Proc (machine env)}
    {next : Unit → Code Value} (found : s.procs p = some proc) (rest : proc.rest = .call .commit next)
    (posted : PostedBy env s.world.db proc.request P) (fresh : P.transaction.transactionId ∉ s.world.db.ids)
    (freshEvent : P.event.eventId ∉ s.world.db.ids)
    (freshKey : ∀ key, P.transaction.idempotencyKey = some key → key ∉ s.world.db.keys)
    (written : (progress env p trace).writes = P.rows) (mirrors : Mirrors w s u) : u.Admits env proc.request P := by
  have running := Protocol.open_of_call found rest
  have commits : (progress env p trace).Commits proc.request := allowed_of_traces traces found rest
  have funded := funded_of_traces locks opening traces running
  have drawn := drawn_of_traces traces running
  have accounts := Tables.accounts_of_undated mirrors.same
  have entries := Tables.entries_of_undated mirrors.same
  have ids := commits.drawn P.transaction (by simp [written, Posting.rows]) P.event (by simp [written, Posting.rows])
  refine {
    idle := mirrors.idle
    consistent := (consistent_of_runs opening traces.runs).of_undated mirrors.same
    posted := posted.transport accounts entries
    covered := fun x amount pays => ?_
    looked := fun x only => ?_
    described := commits.described P.transaction (by simp [written, Posting.rows])
    freshKey := fun key keyed => Tables.keys_of_undated mirrors.same ▸ freshKey key keyed
    fresh := fun id member => ?_
    apart := ?_ }
  · obtain ⟨locked, total, summed, covered⟩ := commits.covered x amount pays
    rw [Tables.balance, Tables.amounts, entries]
    exact covered.trans (funded x total summed locked)
  · obtain ⟨system, single⟩ := commits.looked x only
    have opens : ∀ s p created, ¬Static env s (.start p (.createAccount created)) :=
      fun s p created static => static p created rfl
    have all := cash_of_traces opens opening traces running (by simp [single])
    exact ⟨system, by rw [accounts, accounts_of_runs opens opening traces.runs, ← all, single]⟩
  · have new : id ∉ s.world.db.ids ∧ id ∈ (progress env p trace).ids := by
      rw [ids]
      rcases List.mem_pair.1 member with rfl | rfl
      · exact ⟨fresh, by simp⟩
      · exact ⟨freshEvent, by simp⟩
    rw [Tables.ids_of_undated mirrors.same]
    refine ⟨fun issued => ?_, new.1⟩
    rcases mirrors.issued id issued with old | stored
    · exact drawn.new id new.2 old
    · exact new.1 (Tables.ids_of_undated mirrors.same ▸ stored)
  · have once := drawn.once
    rw [ids] at once
    simpa using once

theorem Mirrors.post {v : World} (mirrors : Mirrors w s u) (posted : World.Posted p u P.rows v)
    (grown : t.world.db = s.world.db ++ P.rows) : v.db ≠ u.db ∧ Mirrors w t (v.finish p) := by
  obtain ⟨added, db, same⟩ := posted.db
  refine ⟨fun unchanged => ?_, ⟨?_, posted.idle, fun id member => ?_⟩⟩
  · have events : added.events = [] := by
      have lengths := congrArg (fun t : Tables => t.events.length) (db.symm.trans unchanged)
      simpa using lengths
    have none := congrArg (fun t : Tables => t.events.length) same
    simp [Tables.undated, Posting.rows, events] at none
  · change v.db.undated = _
    rw [db, grown, Tables.undated_append, Tables.undated_append, same, mirrors.same]
  · change id ∈ w.issued.map (·.2) ∨ id ∈ v.db.ids
    rw [db, Tables.mem_ids_append, Tables.ids_of_undated same]
    rcases posted.issued id member with old | drawn
    · exact (mirrors.issued id old).imp_right .inl
    · exact .inr (.inr drawn)

/-- Every run has a history of the calls that have committed, and these calls come to the same, up to the
times, one after the other. -/
structure Serializes (env : Deployment) (w : World) (s : State (machine env)) : Prop where
  history : ∃ calls, (machine env).History (Static env) World.db ((machine env).initial w) calls s
  serial : ∀ calls, (machine env).History (Static env) World.db ((machine env).initial w) calls s →
    ∃ u, (machine env).Serial World.db w calls u ∧ Tables.undated (World.db u) = s.world.db.undated

theorem still_of_step (stepped : (machine env).step s a = some t) (other : ∀ p choice, a ≠ .step p choice) :
    World.db t.world = World.db s.world := by
  rcases Machine.step_cases stepped with ⟨p, request, rfl, fresh, rfl⟩ |
    ⟨p, choice, proc, stmt, next, result, w', rfl, found, rest, executed, rfl⟩ |
    ⟨p, proc, rfl, found, running, rfl⟩ | ⟨p, proc, rfl, found, finished, rfl⟩ | ⟨e, w', rfl, ticked, rfl⟩
  · rfl
  · exact absurd rfl (other p choice)
  · rfl
  · rfl
  · cases ticked
    rfl

theorem posts_of_commit {rows : Tables} (commits : Commits env db request rows)
    (other : ∀ created, request ≠ .createAccount created) :
    ∃ P : Posting, rows = P.rows ∧ PostedBy env db request P ∧ P.transaction.transactionId ∉ db.ids ∧
      P.event.eventId ∉ db.ids ∧ ∀ key, P.transaction.idempotencyKey = some key → key ∉ db.keys := by
  cases commits with
  | opens created account same => exact absurd same (other created)
  | posts P posted fresh freshEvent freshKey => exact ⟨P, rfl, posted, fresh, freshEvent, freshKey⟩

theorem serializes (locks : env.foreignKeyLocks) (opening : w.Opening)
    (runs : (machine env).Runs (Static env) ((machine env).initial w) s) : Serializes env w s := by
  refine ⟨runs.history still_of_step, fun calls history => ?_⟩
  suffices related : ∃ u, (machine env).Serial World.db w calls u ∧ Mirrors w s u by
    obtain ⟨u, serial, mirrors⟩ := related
    exact ⟨u, serial, mirrors.same⟩
  have start : Mirrors w ((machine env).initial w) w :=
    ⟨rfl, ⟨opening.sessions, opening.rowLocks, opening.keyLocks⟩, fun _ => .inl⟩
  refine history.serial start (fun _ _ _ same mirrors => ?_) ?_
  · exact { mirrors with same := mirrors.same.trans (congrArg Tables.undated same.symm) }
  · intro t u v p choice proc runs _ stepped found changed mirrors
    obtain ⟨trace, traces⟩ := runs.traces
    rcases commit_cases opening traces stepped with same |
      ⟨q, choice', proc', next, same, found', rest, commits, grown⟩
    · exact absurd same changed
    cases same
    cases found.symm.trans found'
    have other := Machine.Runs.requests (Φ := fun request : Request => ∀ created,
      request ≠ .createAccount created)
      (fun {u r request} _ static created same => static r created (by rw [same])) runs p proc found
    obtain ⟨P, written, posted, fresh, freshEvent, freshKey⟩ := posts_of_commit commits other
    have admits := admits_of_commit locks opening traces found rest posted fresh freshEvent freshKey written mirrors
    obtain ⟨value, v', executes, posted'⟩ := admits.executes p
    rw [written] at grown
    exact ⟨p, value, v', executes, mirrors.post posted' grown⟩

end Runs

def isStatic : State (machine sample) → Action (machine sample) → Bool
  | _, .start _ (.createAccount _) => false
  | _, _ => true

theorem static_of_allowed (s : State (machine sample)) (a : Action (machine sample)) (allowed : isStatic s a) :
    Static sample s a := by
  rintro p created rfl
  cases allowed

/-- A withdrawal has looked at Alice's account before a deposit is made in between. -/
def withdrawalAroundDeposit : List (Action (machine sample)) :=
  [.start 1 (.createWithdrawal 2 oneRupee), .step 1 .proceed] ++ deposit 0 oneRupee ++
    [.step 1 .proceed, .step 1 .proceed, .step 1 .proceed, .step 1 (.uuid 20), .step 1 .proceed, .step 1 .proceed,
      .step 1 .proceed, .step 1 .proceed, .step 1 (.uuid 21), .step 1 .proceed, .step 1 .proceed, .step 1 .proceed]

theorem serializes_sample : ∃ s : State (machine sample),
    (s.world : World).db.transactions.map (·.transactionId) = [4, 10, 20] ∧ Serializes sample bank s := by
  have executed : ((machine sample).run isStatic ((machine sample).initial bank) withdrawalAroundDeposit).map
      (fun s => (s.world : World).db.transactions.map (·.transactionId)) = some [4, 10, 20] := by
    decide +kernel
  obtain ⟨s, runs, observed⟩ := Machine.Runs.of_observed (Static sample) static_of_allowed executed
  exact ⟨s, observed, serializes rfl bank_opening runs⟩

end LedgerFlow.Ledger
