import LedgerFlow.Common.Capacity
import LedgerFlow.Consumers.Agreement
import LedgerFlow.Ledger.Solvency

/-! What the balance column of the projection holds: the events of all deposits and withdrawals are taken in
commit order, as long as each stored amount and each running balance fits the column. -/

namespace LedgerFlow.Consumers
open Concurrency Ledger

/-- The account of a deposit or a withdrawal, and what its entry there has stored, in cents. -/
def storedOn (db : Tables) (transaction : Transaction) : Option (UUID × ℤ) :=
  match transaction.transactionType, db.entriesOf transaction.transactionId with
  | .deposit, [_, credit] => some (credit.accountId, credit.amount.unscaled)
  | .withdrawal, [debit, _] => some (debit.accountId, debit.amount.unscaled)
  | _, _ => none

def storedChanges (db : Tables) : List (UUID × ℤ) := db.transactions.filterMap (storedOn db)

def singleEvents (db : Tables) : List Outbox.OutboxEvent := db.events.filter (·.eventType ≠ "TRANSFER_POSTED")

/-- The messages handled one after the other, until one is refused. -/
def handle (p : ℕ) : List Message → World → Option (Except PyError Unit × World)
  | [], w => some (.ok (), w)
  | message :: messages, w =>
    match machine.alone p .proceed (processMessage message) w with
    | some (.ok (), w') => handle p messages w'
    | refused => refused

def Accepts (p : ℕ) (messages : List Message) (w : World) : Prop := ∃ w', handle p messages w = some (.ok (), w')

structure Untouched (w : Ledger.World) (c : World) : Prop where
  ledger : w.Opening
  transactions : w.db.transactions = []
  events : w.db.events = []
  consumers : c.Opening
  processed : c.processed.rows = ∅
  projections : c.projections.rows = ∅

/-- The event asks for this change of one account, in cents. -/
structure Asks (event : Outbox.OutboxEvent) (change : UUID × ℤ) : Prop where
  stores : varchar 100 event.eventType = some event.eventType
  decoded : ∃ d, deltas (Outbox.message event) = .ok [(change.1, .finite d)] ∧ Numeric.quantize 2 d = change.2

variable {env : Deployment} {db rows : Tables} {request : Request} {w : World} {p : ℕ} {message : Message}
  {messages : List Message} {eventId accountId : UUID} {eventType : String} {value : Decimal.Number}

/-! The ledger's side: each of these events asks for what its transaction has stored. -/

theorem storedOn_deposit {transaction : Transaction} {debit credit : LedgerEntry}
    (typed : transaction.transactionType = .deposit)
    (entries : db.entriesOf transaction.transactionId = [debit, credit]) :
    storedOn db transaction = some (credit.accountId, credit.amount.unscaled) := by
  rw [storedOn, typed, entries]

theorem storedOn_withdrawal {transaction : Transaction} {debit credit : LedgerEntry}
    (typed : transaction.transactionType = .withdrawal)
    (entries : db.entriesOf transaction.transactionId = [debit, credit]) :
    storedOn db transaction = some (debit.accountId, debit.amount.unscaled) := by
  rw [storedOn, typed, entries]

theorem storedOn_transfer {transaction : Transaction} (typed : transaction.transactionType = .transfer) :
    storedOn db transaction = none := by
  rw [storedOn, typed]

theorem asks_of_posted {P : Posting} {db' : Tables} (posted : PostedBy env db request P)
    (entries : db'.entriesOf P.transaction.transactionId = P.rows.entries) :
    List.Forall₂ Asks ([P.event].filter (·.eventType ≠ "TRANSFER_POSTED"))
    ([P.transaction].filterMap (storedOn db')) := by
  have kept : P.event.eventType ≠ "TRANSFER_POSTED" →
      [P.event].filter (·.eventType ≠ "TRANSFER_POSTED") = [P.event] := by
    intro other
    simp [other]
  cases posted with
  | deposit account system amount transaction debit credit id createdAt _ _ _ _ typed _ stored =>
    have change := storedOn_deposit typed entries
    rw [kept (show "DEPOSIT_POSTED" ≠ _ by decide), List.filterMap_cons_some change, List.filterMap_nil]
    have stores : varchar 100 "DEPOSIT_POSTED" = some "DEPOSIT_POSTED" := by decide +kernel
    refine .cons ⟨stores, amount.value, deltas_deposit rfl rfl, ?_⟩ .nil
    exact (Numeric.cast_unscaled stored.credited).symm
  | withdrawal account system amount transaction debit credit id createdAt total _ _ _ _ typed _ stored =>
    obtain ⟨negated, negation, debited⟩ := stored.debited
    have change := storedOn_withdrawal typed entries
    rw [kept (show "WITHDRAWAL_POSTED" ≠ _ by decide), List.filterMap_cons_some change, List.filterMap_nil]
    have stores : varchar 100 "WITHDRAWAL_POSTED" = some "WITHDRAWAL_POSTED" := by decide +kernel
    refine .cons ⟨stores, negated, deltas_withdrawal rfl rfl negation, ?_⟩ .nil
    exact (Numeric.cast_unscaled debited).symm
  | transfer _ _ _ _ transaction _ _ _ _ _ _ _ _ _ _ _ _ typed =>
    rw [List.filterMap_cons_none (storedOn_transfer typed), List.filterMap_nil]
    exact .nil

theorem asks_of_commits (commits : Commits env db request rows) (consistent : db.Consistent)
    (before : List.Forall₂ Asks (singleEvents db) (storedChanges db)) :
    List.Forall₂ Asks (singleEvents (db ++ rows)) (storedChanges (db ++ rows)) := by
  have old : db.transactions.filterMap (storedOn (db ++ rows)) = storedChanges db := by
    apply List.filterMap_congr
    intro transaction member
    rw [storedOn, storedOn, commits.entriesOf member]
  rw [singleEvents, storedChanges, Tables.append_events, Tables.append_transactions, List.filter_append,
    List.filterMap_append, old]
  apply List.rel_append before
  cases commits with
  | opens => exact .nil
  | posts P posted fresh =>
    exact asks_of_posted posted (consistent.entriesOf_posting fresh)

theorem asks_of_runs {w : Ledger.World} {c : World} {s : State (Ledger.machine env)} (untouched : Untouched w c)
    (runs : (Ledger.machine env).Runs (Ledger.machine env).anything ((Ledger.machine env).initial w) s) :
    List.Forall₂ Asks (singleEvents s.world.db) (storedChanges s.world.db) := by
  apply kept_of_runs (I := fun db => List.Forall₂ Asks (singleEvents db) (storedChanges db))
    untouched.ledger _ _ runs
  · rw [singleEvents, storedChanges, untouched.events, untouched.transactions]
    exact .nil
  · intro s a p request rows _ _ commits consistent before
    exact asks_of_commits commits consistent before

/-! The consumer's side: a change is taken exactly when it and the new balance fit the column. -/

section Consumer
variable {event : Outbox.OutboxEvent} {events : List Outbox.OutboxEvent} {change : UUID × ℤ}
  {changes : List (UUID × ℤ)} {balance : UUID → ℤ}

theorem projected_small {n : ℤ} (shows : projected accountId w = n) : n.natAbs < 10 ^ 18 := by
  cases found : w.projections.rows.lookup accountId with
  | none =>
    rw [projected, found] at shows
    rw [← WithTop.coe_inj.1 shows]
    decide
  | some row =>
    rw [projected, found] at shows
    exact Balance.cents_small shows

theorem upserted_of_overflow {n : ℤ} {excluded : Balance} {updatedAt : Timestamp}
    (shows : projected accountId w = n)
    {m : ℤ} (number : excluded.cents = m) (exceeds : ¬(n + m).natAbs < 10 ^ 18) :
    upserted accountId excluded updatedAt (w.projections.rows.lookup accountId) = none := by
  cases written : upserted accountId excluded updatedAt (w.projections.rows.lookup accountId) with
  | none => rfl
  | some row =>
    have before : (w.projections.rows.lookup accountId).elim 0 (·.balance.cents) = n := shows
    have sum := cents_upserted written
    rw [before, number, ← WithTop.coe_add] at sum
    exact absurd (Balance.cents_small sum) exceeds

theorem alone_applyDelta_error (free : w.projections.Free p accountId) (refused : ∀ excluded,
      Balance.ofNumber value = some excluded →
        upserted accountId excluded w.clock (w.projections.visible p accountId) = none) :
    machine.alone p .proceed (applyDelta accountId value) w = some (.error .dataError, w) := by
  have executed : exec p (.upsert accountId value w.clock) .proceed w = some (.error .dataError, w) := by
    cases stored : Balance.ofNumber value with
    | none => simp only [exec, stored]
    | some excluded => simp only [exec, stored, if_pos free, refused excluded stored]
  calc
    _ = machine.alone p .proceed (.call (.upsert accountId value w.clock) checked) w := rfl
    _ = machine.alone p .proceed (checked (.error .dataError)) w := Machine.alone_call executed
    _ = _ := rfl

theorem alone_taken (p : ℕ) (opening : w.Opening) (fresh : event.eventId ∉ registered w)
    (asks : Asks event change)
    (carried : message.value = Outbox.message event) (shows : ∀ x, projected x w = balance x)
    (small : change.2.natAbs < 10 ^ 18) (fits : (balance change.1 + change.2).natAbs < 10 ^ 18) :
    ∃ w' : World, machine.alone p .proceed (processMessage message) w = some (.ok (), w') ∧ w'.Opening ∧
      registered w' = insert event.eventId (registered w) ∧ ∀ x,
      projected x w' = Capacity.add balance change x := by
  obtain ⟨d, decoded, units⟩ := asks.decoded
  rw [← units] at small fits
  have inRange : ∀ n : ℤ, projected change.1 w = n → (n + Numeric.quantize 2 d).natAbs < 10 ^ 18 := by
    intro n same
    rwa [← WithTop.coe_inj.1 ((shows change.1).symm.trans same)]
  obtain ⟨row, written⟩ := upserted_of_fits ⟨_, small⟩ w.clock inRange
  obtain ⟨w', executed, closed, registers, projects⟩ := alone_processMessage p opening fresh
    (by rw [carried, eventIdOf_message]) (by rw [carried, Outbox.message_event_type]) asks.stores
      (by rw [carried, decoded])
    (ofNumber_finite small) written
  refine ⟨w', executed, closed, registers, fun x => ?_⟩
  rw [projects, shows, Capacity.add, ← units, WithTop.coe_add]
  by_cases same : change.1 = x
  · rw [same, sumOn_singleton_self, if_pos rfl]
    rfl
  · rw [sumOn_singleton_ne same, if_neg same]
    rfl

theorem alone_overflow (p : ℕ) (opening : w.Opening) (fresh : event.eventId ∉ registered w)
    (asks : Asks event change)
    (carried : message.value = Outbox.message event) (shows : ∀ x, projected x w = balance x)
    (exceeds : ¬(change.2.natAbs < 10 ^ 18 ∧ (balance change.1 + change.2).natAbs < 10 ^ 18)) :
    ∃ w' : World, machine.alone p .proceed (processMessage message) w = some (.error .dataError, w') := by
  obtain ⟨d, decoded, units⟩ := asks.decoded
  have refused : ∀ excluded, Balance.ofNumber (.finite d) = some excluded →
      upserted change.1 excluded w.clock (w.projections.visible p change.1) = none := by
    intro excluded stored
    have number : excluded.cents = (Numeric.quantize 2 d : ℤ) := Balance.cents_ofNumber stored
    rw [units] at number
    rw [Store.visible_of_drafts (opening.projections.drafts p)]
    apply upserted_of_overflow (shows change.1) number
    intro fits
    exact exceeds ⟨Balance.cents_small number, fits⟩
  apply alone_raised p opening fresh (by rw [carried, eventIdOf_message])
    (by rw [carried, Outbox.message_event_type]) asks.stores
  have raises := alone_applyDelta_error (p := p)
    (w := { w with processed := w.processed.draft p event.eventId ⟨event.eventId, event.eventType, w.clock⟩ })
    (.of_unlocked (opening.projections.locks change.1)) refused
  rw [applyBalanceProjection_eq, carried, decoded]
  exact Machine.alone_bind_error (f := fun _ => applyAll []) raises

theorem accepts_iff (p : ℕ) (opening : w.Opening) (shows : ∀ x, projected x w = balance x)
    (fresh : ∀ event ∈ events, event.eventId ∉ registered w) (once : (events.map (·.eventId)).Nodup)
    (asks : List.Forall₂ Asks events changes) (carried : messages.map (·.value) = events.map Outbox.message) :
    Accepts p messages w ↔ Capacity.Fits (10 ^ 18) balance changes := by
  have small : ∀ x, (balance x).natAbs < 10 ^ 18 := fun x => projected_small (shows x)
  induction asks generalizing messages w balance with
  | nil =>
    obtain rfl := List.map_eq_nil_iff.1 carried
    exact iff_of_true ⟨w, rfl⟩ (Capacity.fits_nil.2 small)
  | @cons event change events changes ask asks ih =>
    obtain ⟨message, messages, rfl, first, rest⟩ := List.map_eq_cons_iff.1 carried
    have new := fresh event List.mem_cons_self
    rw [List.map_cons, List.nodup_cons] at once
    rw [Capacity.fits_cons small, ← and_assoc]
    by_cases fits : change.2.natAbs < 10 ^ 18 ∧ (balance change.1 + change.2).natAbs < 10 ^ 18
    · obtain ⟨w', executed, closed, registers, projects⟩ :=
        alone_taken p opening new ask first shows fits.1 fits.2
      have later : ∀ event ∈ events, event.eventId ∉ registered w' := by
        intro other member
        rw [registers, Finset.mem_insert, not_or]
        refine ⟨fun same => once.1 (same ▸ List.mem_map_of_mem member),
          fresh other (List.mem_cons_of_mem _ member)⟩
      have step : Accepts p (message :: messages) w ↔ Accepts p messages w' := by
        simp only [Accepts, handle, executed]
      have rest := ih closed projects later once.2 rest fun x => projected_small (projects x)
      exact (step.trans rest).trans (and_iff_right fits).symm
    · obtain ⟨w', executed⟩ := alone_overflow p opening new ask first shows fits
      apply iff_of_false
      · rintro ⟨u, taken⟩
        simp only [handle, executed] at taken
        cases taken
      · exact fun holds => fits holds.1

end Consumer

/-- From a new ledger, after any run of its calls: the events of the deposits and withdrawals are all taken in commit
order, exactly when each stored amount and each running balance fits the column. -/
theorem projection_holds_iff {w : Ledger.World} {c : World} {s : State (Ledger.machine env)}
    (untouched : Untouched w c)
    (runs : (Ledger.machine env).Runs (Ledger.machine env).anything ((Ledger.machine env).initial w) s)
    (carried : messages.map (·.value) = (singleEvents s.world.db).map Outbox.message) :
    Accepts p messages c ↔ Capacity.Fits (10 ^ 18) (fun _ => 0) (storedChanges s.world.db) := by
  have consistent := consistent_of_runs untouched.ledger runs
  have once : ((singleEvents s.world.db).map (·.eventId)).Nodup :=
    consistent.eventIds.sublist (List.filter_sublist.map _)
  apply accepts_iff p untouched.consumers _ _ once (asks_of_runs untouched runs) carried
  · intro x
    simp [projected, untouched.projections]
  · intro event _
    simp [registered, untouched.processed]

theorem newBank_untouched : Untouched newBank emptyTables :=
  ⟨newBank_opening, rfl, rfl, emptyTables_opening, rfl, rfl⟩

def delivery (db : Tables) : List Message :=
  (singleEvents db).map fun event => ⟨"ledger-events", 0, 0, Outbox.message event⟩

theorem delivery_carries (db : Tables) : (delivery db).map (·.value) = (singleEvents db).map Outbox.message := by
  rw [delivery, List.map_map]
  rfl

def depositAndWithdrawals : List (Action (Ledger.machine sample)) :=
  deposit 0 hundred ++ racingWithdrawals 1 2 oneRupee 12 13 ++
    [.step 2 .proceed, .step 2 (.uuid 14), .step 2 .proceed, .step 2 .proceed, .step 2 .proceed, .step 2 .proceed,
      .step 2 (.uuid 15), .step 2 .proceed, .step 2 .proceed, .step 2 .proceed]

/-- The first event inserts Alice's row, the others take their amounts from it. -/
theorem projection_holds_sample : ∃ s : State (Ledger.machine sample),
    storedChanges s.world.db = [(2, 10000), (2, -100), (2, -100)] ∧
    Accepts 0 (delivery s.world.db) emptyTables := by
  have executed : ((Ledger.machine sample).run (fun _ _ => true) ((Ledger.machine sample).initial newBank)
      depositAndWithdrawals).map (fun s => storedChanges s.world.db) = some [(2, 10000), (2, -100), (2, -100)] := by
    decide +kernel
  obtain ⟨s, runs, observed⟩ := Machine.Runs.of_observed _ (fun _ _ _ => trivial) executed
  refine ⟨s, observed, (projection_holds_iff newBank_untouched runs (delivery_carries _)).2 ?_⟩
  rw [observed]
  refine ⟨by decide, fun n k => ?_⟩
  rcases n with _ | _ | _ | n <;> by_cases own : (2 : UUID) = k <;> simp [Capacity.total, own]

def huge : Amount := ⟨⟨false, 1, 16⟩, rfl, by decide⟩

/-- The ledger commits a deposit that the consumer refuses. -/
theorem not_projection_holds : ¬∀ (s : State (Ledger.machine sample)) (messages : List Message),
    (Ledger.machine sample).Runs (Ledger.machine sample).anything ((Ledger.machine sample).initial newBank) s →
      messages.map (·.value) = (singleEvents s.world.db).map Outbox.message → Accepts 0 messages emptyTables := by
  intro all
  have executed : ((Ledger.machine sample).run (fun _ _ => true) ((Ledger.machine sample).initial newBank)
      (deposit 0 huge)).map (fun s => (handle 0 (delivery s.world.db) emptyTables).map (·.1)) =
        some (some (.error .dataError)) := by
    decide +kernel
  obtain ⟨s, runs, observed⟩ := Machine.Runs.of_observed _ (fun _ _ _ => trivial) executed
  obtain ⟨c', taken⟩ := all s (delivery s.world.db) runs (delivery_carries _)
  rw [taken] at observed
  cases observed

end LedgerFlow.Consumers
